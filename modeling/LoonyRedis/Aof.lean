import LoonyRedis.Requests
import LoonyRedis.Wire

/-!
# The append-only file

A record of the append-only file is a command as its parts, written as an array of bulk
strings (`writeResp`). At startup the file is read frame by frame as far as it can be
parsed (`loadFrames`), and then it is opened again for appending.

A crash may leave a prefix of what was written. `loadFrames` then returns the records that are
complete in it. But the rest of a torn record stays in the file, and what is written after the
restart is read as its continuation : `recovery_continues_iff` says that whatever is appended is
recovered if and only if the crash came between two records.
-/

namespace LoonyRedis

open Parser

/-! ## Writing and loading -/

/-- The bytes of a record. -/
def writeResp (parts : Record) : Bytes :=
  0x2A :: (decimal parts.length ++ crlf ++
    parts.flatMap fun part => 0x24 :: (decimal part.length ++ crlf ++ part ++ crlf))

/-- The bytes of records that are appended one after the other. -/
def writeResps (rs : List Record) : Bytes := rs.flatMap writeResp

/-- The loop of `load_frames`, from the position where `b` starts. -/
def loadLoop : ℕ → Bytes → List Frame
  | 0, _ => []
  | fuel + 1, b =>
    match parseFrame b with
    | .ok (some (f, consumed)) => f :: loadLoop fuel (b.drop consumed)
    | .ok none => []
    -- The remainder is ignored.
    | .error _ => []

/-- All frames of the file; every frame takes a byte of it. -/
def loadFrames (file : Bytes) : List Frame := loadLoop (file.length + 1) file

/-- What the types of the program ensure of a record. -/
def Record.Fits (r : Record) : Prop := (Frame.bulks r).Fits

/-- The records that are complete in the first `n` bytes. -/
def completeRecords : List Record → ℕ → List Record
  | [], _ => []
  | r :: rs, n =>
    if (writeResp r).length ≤ n then r :: completeRecords rs (n - (writeResp r).length) else []

/-! ## Records as frames -/

theorem writeFrames_bulks (parts : List Bytes) :
    writeFrames (parts.map fun b => .bulk (some b)) =
      parts.flatMap fun part => 0x24 :: (decimal part.length ++ crlf ++ part ++ crlf) := by
  induction parts with
  | nil => rfl
  | cons p parts ih => rw [List.map_cons, writeFrames, ih, writeFrame, List.flatMap_cons]

theorem writeResp_eq (parts : Record) : writeResp parts = writeFrame (.bulks parts) := by
  rw [Frame.bulks, writeFrame, writeFrames_bulks, List.length_map]
  rfl

theorem writeResps_eq (rs : List Record) : writeResps rs = writeFrames (rs.map Frame.bulks) := by
  induction rs with
  | nil => rfl
  | cons r rs ih =>
    rw [List.map_cons, writeFrames, ← ih, ← writeResp_eq]
    rfl

theorem loadLoop_eq : ∀ {fuel : ℕ} {b : Bytes}, b.length < fuel →
    loadLoop fuel b = (drain wireValue b).1
  | fuel + 1, b, hlt => by
    unfold loadLoop
    cases hw : wireValue b with
    | ok x =>
      obtain ⟨f, r⟩ := x
      obtain ⟨c, rfl, hc, hparse⟩ := parseFrame_of_wireValue hw
      rw [hparse, drain_ok consumes_wireValue hw]
      rw [List.length_append] at hlt
      simp only [List.drop_left, @loadLoop_eq fuel r (by omega)]
    | error e =>
      cases e with
      | incomplete => simp only [parseFrame, hw, drain_incomplete hw]
      | invalid e => simp only [parseFrame, hw, drain_invalid hw]
      | tooDeep => exact absurd hw (wireValue_ne_tooDeep b)

theorem loadFrames_eq (file : Bytes) : loadFrames file = (drain wireValue file).1 :=
  loadLoop_eq (Nat.lt_succ_self _)

theorem oneLine_record (r : Record) : (Frame.bulks r).OneLine := by
  rw [Frame.bulks, Frame.OneLine, allOneLine_iff]
  intro f hf
  obtain ⟨b, -, rfl⟩ := List.mem_map.mp hf
  simp [Frame.OneLine]

theorem drain_writeResps {rs : List Record} (hfit : ∀ r ∈ rs, Record.Fits r) (x : Bytes) :
    drain wireValue (writeResps rs ++ x) =
      (rs.map Frame.bulks ++ (drain wireValue x).1, (drain wireValue x).2) := by
  rw [writeResps_eq]
  refine drain_writeFrames (allFit_iff.mpr fun f hf => ?_) (allOneLine_iff.mpr fun f hf => ?_) x
  · obtain ⟨r, hr, rfl⟩ := List.mem_map.mp hf
    exact hfit r hr
  · obtain ⟨r, -, rfl⟩ := List.mem_map.mp hf
    exact oneLine_record r

/-- What was written is loaded. -/
theorem loadFrames_writeResps {rs : List Record} (hfit : ∀ r ∈ rs, Record.Fits r) :
    loadFrames (writeResps rs) = rs.map Frame.bulks := by
  have hdrain := drain_writeResps hfit []
  have hnil : drain wireValue [] = ([], .incomplete []) := drain_incomplete rfl
  rw [List.append_nil, hnil, List.append_nil] at hdrain
  rw [loadFrames_eq, hdrain]

/-! ## Torn records -/

/-- A beginning of a record is incomplete. -/
theorem wireValue_torn {r : Record} {t u : Bytes} (hr : Record.Fits r) (hsplit : writeResp r = t ++ u)
    (hu : u ≠ []) : wireValue t = .error .incomplete := by
  have hwhole := wireValue_writeFrame hr (oneLine_record r) []
  rw [List.append_nil, ← writeResp_eq, hsplit] at hwhole
  cases hw : wireValue t with
  | ok x =>
    obtain ⟨f, rest⟩ := x
    rw [stable_wireValue.ok hw u] at hwhole
    have hnil := (Prod.mk.inj (Except.ok.inj hwhole)).2
    exact absurd (List.append_eq_nil_iff.mp hnil).2 hu
  | error e =>
    cases e with
    | incomplete => rfl
    | invalid e =>
      rw [stable_wireValue.invalid hw u] at hwhole
      cases hwhole
    | tooDeep => exact absurd hw (wireValue_ne_tooDeep t)

theorem count_fits {r : Record} (hr : Record.Fits r) : (r.length : ℤ) ≤ Text.i64Max := by
  rw [Record.Fits, Frame.bulks, Frame.Fits, List.length_map] at hr
  exact hr.1

theorem lf_not_mem_decimal (n : ℤ) : (0x0A : UInt8) ∉ decimal n :=
  not_mem_decimal (by decide) fun c hc => by
    rw [Utf8.toNat_inj (d := '\n') hc]
    rfl

/-- In a torn first line there is no line feed. -/
theorem lf_not_mem_head {n : ℕ} {s w : Bytes} (h : decimal n ++ crlf = s ++ w) (hw : w ≠ []) :
    0x0A ∉ s := by
  intro hmem
  obtain ⟨w', y, rfl⟩ := (List.eq_nil_or_concat w).resolve_left hw
  have hsplit : (decimal n ++ [0x0D]) ++ [0x0A] = (s ++ w') ++ [y] := by
    simpa [crlf, List.append_assoc] using h
  have hinit := (List.append_inj' hsplit rfl).1
  have hmem' : (0x0A : UInt8) ∈ decimal n ++ [0x0D] := by
    rw [hinit]
    exact List.mem_append_left _ hmem
  rcases List.mem_append.mp hmem' with hmem' | hmem'
  · exact lf_not_mem_decimal n hmem'
  · exact absurd hmem' (by decide)

/-- Behind a beginning of a record, another record with another number of parts is not read
as itself : either its first line is taken for the rest of the count, or its parts are taken for
the missing ones. -/
theorem torn_swallows {r q : Record} {t u x : Bytes} (hr : Record.Fits r) (ht : t ≠ [])
    (hsplit : writeResp r = t ++ u) (hlen : q.length ≠ r.length) :
    wireValue (t ++ writeResp q) ≠ .ok (.bulks q, x) := by
  intro hw
  cases t with
  | nil => exact ht rfl
  | cons star s =>
    rw [writeResp, List.cons_append, List.cons.injEq] at hsplit
    obtain ⟨rfl, hsplit⟩ := hsplit
    rw [wireValue, List.cons_append, parseValue_cons_some parseTagged_array] at hw
    obtain ⟨count, rest, hread, hcount⟩ := count_of_parseArray hw
    rw [List.length_map] at hcount
    have hwhole (w : Bytes) (hs : s = decimal r.length ++ crlf ++ w) : False := by
      -- The count is that of the torn record.
      obtain ⟨n, hn, hr'⟩ := readInt_length "array count" (count_fits hr) (w ++ writeResp q)
      rw [hs, List.append_assoc, hr'] at hread
      obtain ⟨rfl, -⟩ := Prod.mk.inj (Except.ok.inj hread)
      omega
    rcases List.append_eq_append_iff.mp hsplit with ⟨w, hs, -⟩ | ⟨w, hhead, -⟩
    · exact hwhole w hs
    · by_cases hnil : w = []
      · exact hwhole [] (by rw [hhead, hnil, List.append_nil, List.append_nil])
      · -- The first line goes on to the end of the first line of `q`.
        have hlf : (0x0A : UInt8) ∉ s ++ 0x2A :: decimal q.length := by
          intro hmem
          rcases List.mem_append.mp hmem with hmem | hmem
          · exact lf_not_mem_head hhead hnil hmem
          · exact (List.mem_cons.mp hmem).elim (by decide) (lf_not_mem_decimal _)
        have hline : ¬ Utf8.HasCrlf (s ++ 0x2A :: decimal q.length) :=
          fun h => hlf (h.subset (by simp))
        have hsplit : s ++ writeResp q = (s ++ 0x2A :: decimal q.length) ++ crlf ++
            q.flatMap fun part => 0x24 :: (decimal part.length ++ crlf ++ part ++ crlf) := by
          simp [writeResp, List.append_assoc]
        rw [readInt, hsplit, bind_ok (readLine_append hline _),
          parseInt_of_mem_star (List.mem_append_right _ List.mem_cons_self)] at hread
        cases hread

/-! ## Recovery -/

/-- The first `n` bytes of a file are its complete records and, if the crash came inside a
record, a beginning of that. -/
theorem take_writeResps : ∀ (rs : List Record) (n : ℕ), ∃ t,
    (writeResps rs).take n = writeResps (completeRecords rs n) ++ t ∧
      (t = [] ∨ ∃ r ∈ rs, ∃ u ≠ [], writeResp r = t ++ u)
  | [], n => ⟨[], by simp [writeResps, completeRecords], .inl rfl⟩
  | r :: rs, n => by
    have hcons : writeResps (r :: rs) = writeResp r ++ writeResps rs := rfl
    by_cases hle : (writeResp r).length ≤ n
    · obtain ⟨t, htake, ht⟩ := take_writeResps rs (n - (writeResp r).length)
      refine ⟨t, ?_, ht.imp_right ?_⟩
      · rw [hcons, List.take_append, List.take_of_length_le hle, htake, completeRecords, if_pos hle,
          ← List.append_assoc]
        rfl
      · rintro ⟨r', hr', hu⟩
        exact ⟨r', List.mem_cons_of_mem _ hr', hu⟩
    · refine ⟨(writeResp r).take n, ?_, ?_⟩
      · rw [hcons, List.take_append_of_le_length (by omega), completeRecords, if_neg hle]
        rfl
      · exact .inr ⟨r, List.mem_cons_self, (writeResp r).drop n, by simpa using hle,
          (List.take_append_drop n _).symm⟩

theorem completeRecords_initial : ∀ (rs : List Record) (n : ℕ), completeRecords rs n <+: rs
  | [], _ => by simp [completeRecords]
  | r :: rs, n => by
    rw [completeRecords]
    split
    · exact List.prefix_cons_inj r |>.mpr (completeRecords_initial rs _)
    · exact List.nil_prefix

/-- After a crash the complete records are loaded. -/
theorem loadFrames_take {rs : List Record} (hfit : ∀ r ∈ rs, Record.Fits r) (n : ℕ) :
    loadFrames ((writeResps rs).take n) = (completeRecords rs n).map Frame.bulks := by
  obtain ⟨t, htake, ht⟩ := take_writeResps rs n
  have hcomplete (r : Record) (hr : r ∈ completeRecords rs n) : Record.Fits r :=
    hfit r ((completeRecords_initial rs n).subset hr)
  have htail : (drain wireValue t).1 = [] := by
    rcases ht with rfl | ⟨r, hr, u, hu, hsplit⟩
    · rfl
    · rw [drain_incomplete (wireValue_torn (hfit r hr) hsplit hu)]
  rw [loadFrames_eq, htake, drain_writeResps hcomplete, htail, List.append_nil]

theorem wireValue_of_drain {b : Bytes} {f : Frame} (h : (drain wireValue b).1 = [f]) :
    ∃ x, wireValue b = .ok (f, x) := by
  cases hw : wireValue b with
  | ok y =>
    obtain ⟨g, x⟩ := y
    rw [drain_ok consumes_wireValue hw] at h
    obtain ⟨rfl, -⟩ := List.cons.inj h
    exact ⟨x, rfl⟩
  | error e =>
    rw [drain, Parser.drainLoop, hw] at h
    cases e <;> cases h

/-- A record of two parts and one of three. -/
def incrRecord : Record := [Utf8.toBytes "INCR", Utf8.toBytes "k"]

/-- A record that sets a key. -/
def setRecord : Record := [Utf8.toBytes "SET", Utf8.toBytes "k", Utf8.toBytes "v"]

theorem fits_examples : Record.Fits incrRecord ∧ Record.Fits setRecord := by
  simp only [incrRecord, setRecord, Record.Fits, Frame.bulks, List.map, Frame.Fits, Frame.AllFit]
  decide

/-- After a crash in the middle of a record, some record that is appended later is lost. -/
theorem exists_lost {r : Record} {t u : Bytes} (hr : Record.Fits r) (ht : t ≠ [])
    (hsplit : writeResp r = t ++ u) :
    ∃ q, Record.Fits q ∧ (drain wireValue (t ++ writeResp q)).1 ≠ [.bulks q] := by
  obtain ⟨q, hq, hlen⟩ : ∃ q, Record.Fits q ∧ q.length ≠ r.length := by
    by_cases htwo : r.length = 2
    · exact ⟨setRecord, fits_examples.2, by rw [htwo]; decide⟩
    · exact ⟨incrRecord, fits_examples.1, fun h => htwo h.symm⟩
  refine ⟨q, hq, fun h => ?_⟩
  obtain ⟨x, hx⟩ := wireValue_of_drain h
  exact torn_swallows hr ht hsplit hlen hx

/-- The complete records are loaded after a crash; and together with everything that is
appended after the restart, if and only if the crash came between two records. -/
theorem recovery_continues_iff {rs : List Record} (hfit : ∀ r ∈ rs, Record.Fits r) (n : ℕ) :
    loadFrames ((writeResps rs).take n) = (completeRecords rs n).map Frame.bulks ∧
    ((∀ qs : List Record, (∀ q ∈ qs, Record.Fits q) →
        loadFrames ((writeResps rs).take n ++ writeResps qs) =
          (completeRecords rs n ++ qs).map Frame.bulks) ↔
      ∃ k, (writeResps rs).take n = writeResps (rs.take k)) := by
  have hcomplete (r : Record) (hr : r ∈ completeRecords rs n) : Record.Fits r :=
    hfit r ((completeRecords_initial rs n).subset hr)
  refine ⟨loadFrames_take hfit n, fun h => ?_, ?_⟩
  · obtain ⟨t, htake, ht⟩ := take_writeResps rs n
    by_cases hnil : t = []
    · refine ⟨(completeRecords rs n).length, ?_⟩
      rw [htake, hnil, List.append_nil, ← List.prefix_iff_eq_take.mp (completeRecords_initial rs n)]
    · obtain ⟨r, hr, u, hu, hsplit⟩ := ht.resolve_left hnil
      obtain ⟨q, hq, hlost⟩ := exists_lost (hfit r hr) hnil hsplit
      have hload := h [q] (by simpa using hq)
      have happend : writeResps [q] = writeResp q := by simp [writeResps]
      rw [loadFrames_eq, htake, happend, List.append_assoc, drain_writeResps hcomplete,
        List.map_append, List.append_cancel_left_eq] at hload
      exact absurd hload hlost
  · rintro ⟨k, hk⟩ qs hqs
    have hstart (r : Record) (hr : r ∈ rs.take k) : Record.Fits r :=
      hfit r (List.mem_of_mem_take hr)
    have hsame : completeRecords rs n = rs.take k := by
      have hload := loadFrames_take hfit n
      rw [hk, loadFrames_writeResps hstart] at hload
      exact (List.map_injective_iff.mpr Frame.bulks_injective hload).symm
    have happend : writeResps (rs.take k) ++ writeResps qs = writeResps (rs.take k ++ qs) := by
      simp [writeResps]
    rw [hk, hsame, happend]
    refine loadFrames_writeResps fun r hr => ?_
    exact (List.mem_append.mp hr).elim (hstart r) (hqs r)

/-- A `SET` that was cut before its value takes the first byte of the next record for it, and
what follows is read as other commands. -/
theorem torn_set_swallows_incr :
    completeRecords [setRecord] 24 = [] ∧
      loadFrames ((writeResps [setRecord]).take 24 ++ writeResps [incrRecord]) =
        [.command ["SET", "k", "*"], .command ["$4"], .command ["INCR"], .bulkStr "k"] ∧
      loadFrames ((writeResps [setRecord]).take 24 ++ writeResps [incrRecord]) ≠
        (completeRecords [setRecord] 24 ++ [incrRecord]).map Frame.bulks := by
  decide +kernel

theorem recovery_between_records :
    loadFrames ((writeResps [incrRecord, setRecord]).take 21 ++ writeResps [setRecord]) =
      [.bulks incrRecord, .bulks setRecord] := by
  have hfit : ∀ r ∈ [incrRecord, setRecord], Record.Fits r := by
    simp [fits_examples.1, fits_examples.2]
  have hcut : ∃ k, (writeResps [incrRecord, setRecord]).take 21 =
      writeResps ([incrRecord, setRecord].take k) := ⟨1, by decide⟩
  have hone : completeRecords [incrRecord, setRecord] 21 = [incrRecord] := by decide
  have hload := (recovery_continues_iff hfit 21).2.mpr hcut [setRecord] (by simp [fits_examples.2])
  rw [hload, hone]
  rfl

end LoonyRedis
