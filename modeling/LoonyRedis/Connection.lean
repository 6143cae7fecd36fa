import LoonyRedis.Panics

/-!
# Connections

The loop that serves a client (`handle_connection`) : read what has arrived, parse and execute
as many frames as there are in the buffer, and write the replies of one read together. A `SYNC`
command hands the connection over to replication. On a protocol error the reply is an error and
the whole buffer is dropped, and the loop goes on with what is read next. A panic of the parser
or of a command ends the connection, and the replies of the read in which it happens are lost.

How the network cuts a stream into pieces matters in two ways. After a protocol error, what has
already arrived is dropped and what arrives later is served. Before a panic, the replies of
earlier reads are written and those of the same read are not. So the pieces do not matter if and
only if no line ends after the first error, and no panic comes after a frame that is answered
(`chunking_irrelevant_iff`).
-/

namespace LoonyRedis

open Parser

/-! ## The loop -/

/-- The command that asks for a full copy of the data and all later writes. -/
def isSyncCommand : Frame → Bool
  | .array (some (.bulk (some cmd) :: _)) => cmd.map Text.toAsciiUppercase = Utf8.toBytes "SYNC"
  | _ => false

/-- The reply to bytes that are no frame. -/
def protocolError (msg : String) : Frame := .error s!"ERR protocol error: {msg}"

/-- `split_to` : what is left of a buffer after its first `n` bytes. -/
def Buffer.drop (b : Buffer) (n : ℕ) : Buffer :=
  ⟨b.1.drop n, (List.length_drop ▸ Nat.sub_le ..).trans b.2⟩

/-- How a connection goes on after a read : with what is left in the buffer, handed over to
replication, or not at all after a panic. -/
inductive Next (σ : Type) where
  | reading (s : σ) (rest : Bytes)
  | handedOver
  | panicked

/-- What one read leads to : the frames that are executed, the replies that are collected for one
write, and how the connection goes on. -/
structure Burst (σ : Type) where
  frames : List Frame
  out : Bytes
  next : Next σ

/-- A frame that is answered comes before all else. -/
def Burst.answered {σ : Type} (f response : Frame) (b : Burst σ) : Burst σ :=
  ⟨f :: b.frames, writeFrame response ++ b.out, b.next⟩

section Loop

variable (frameSize : ℕ) {σ : Type} (exec : σ → Frame → Option (Frame × σ))

/-- Parse and serve what is in the buffer, for any server that answers frames or panics. -/
def serveLoop : ℕ → σ → Buffer → Burst σ
  | 0, s, b => ⟨[], [], .reading s b.1⟩
  | fuel + 1, s, b =>
    match parseFrameAt frameSize b with
    | some (.ok (some (f, consumed))) =>
      if isSyncCommand f then ⟨[], [], .handedOver⟩
      else match exec s f with
        | some (response, s') => (serveLoop fuel s' (b.drop consumed)).answered f response
        | none => ⟨[f], [], .panicked⟩
    | some (.ok none) => ⟨[], [], .reading s b.1⟩
    -- The buffer is cleared.
    | some (.error e) => ⟨[], writeFrame (protocolError e), .reading s []⟩
    | none => ⟨[], [], .panicked⟩

/-- Every frame takes a byte of the buffer. -/
def serveBuffer (s : σ) (b : Buffer) : Burst σ := serveLoop frameSize exec (b.1.length + 1) s b

/-- A connection on which the pieces of a list are read, one after the other : the frames that
are executed, and the bytes that are written. There is no room for a buffer that is too large. -/
def handleConnection : List Bytes → σ → Bytes → List Frame × Bytes
  | [], _, _ => ([], [])
  | c :: cs, s, buf =>
    if hfits : (buf ++ c).length ≤ isizeMax then
      let burst := serveBuffer frameSize exec s ⟨buf ++ c, hfits⟩
      match burst.next with
      | .reading s' rest =>
        let later := handleConnection cs s' rest
        (burst.frames ++ later.1, burst.out ++ later.2)
      | .handedOver => (burst.frames, burst.out)
      -- What was collected is lost.
      | .panicked => (burst.frames, [])
    else ([], [])

/-! ## When the pieces do not matter -/

/-- The replies to frames that are all answered, one after the other. -/
def answers : σ → List Frame → Option (Bytes × σ)
  | s, [] => some ([], s)
  | s, f :: fs =>
    if isSyncCommand f then none
    else (exec s f).bind fun r => (answers r.2 fs).map fun p => (writeFrame r.1 ++ p.1, p.2)

/-- The parser meets a protocol error, and all frames before it are answered. -/
def MeetsError (s : σ) (b : Bytes) : Prop :=
  ∃ fs e, drain (checkedValue frameSize) b = (fs, .invalid (.protocol e)) ∧
    (answers exec s fs).isSome

/-- The parser or a command panics, and all frames before are answered. -/
def MeetsPanic (s : σ) (b : Bytes) : Prop :=
  (∃ fs, drain (checkedValue frameSize) b = (fs, .invalid .panic) ∧ (answers exec s fs).isSome) ∨
    ∃ fs f gs out s', (drain (checkedValue frameSize) b).1 = fs ++ f :: gs ∧
      answers exec s fs = some (out, s') ∧ isSyncCommand f = false ∧ exec s' f = none

/-- The frame at the front is answered. -/
def AnswersFirst (s : σ) (b : Bytes) : Prop :=
  ∃ f r, checkedValue frameSize b = .ok (f, r) ∧ isSyncCommand f = false ∧ (exec s f).isSome

/-- Neither a frame to execute nor a protocol error is at the front. -/
def Silent (b : Bytes) : Prop :=
  (∀ f r, checkedValue frameSize b = .ok (f, r) → isSyncCommand f = true) ∧
    ∀ e, checkedValue frameSize b ≠ .error (.invalid (.protocol e))

/-- No line ends after the first protocol error, and no panic comes after a frame that is
answered. Nothing may come of a stream that no buffer has room for. -/
def CutAnywhere (s : σ) (stream : Bytes) : Prop :=
  if stream.length ≤ isizeMax then
    (∀ p t, stream = p ++ t → MeetsError frameSize exec s p → ¬ Utf8.HasCrlf t) ∧
      (AnswersFirst frameSize exec s stream → ¬ MeetsPanic frameSize exec s stream)
  else Silent frameSize (stream.take isizeMax)

/-! ## The loop and the parser -/

/-- What follows from the frames in a buffer and how they end. -/
def servedAs : σ → List Frame → Rest UInt8 Fault → Burst σ
  | s, [], .incomplete r => ⟨[], [], .reading s r⟩
  | s, [], .invalid (.protocol e) => ⟨[], writeFrame (protocolError e), .reading s []⟩
  | _, [], .invalid .panic => ⟨[], [], .panicked⟩
  | s, f :: fs, rest =>
    if isSyncCommand f then ⟨[], [], .handedOver⟩
    else match exec s f with
      | some (response, s') => (servedAs s' fs rest).answered f response
      | none => ⟨[f], [], .panicked⟩

/-- What follows from a buffer. -/
noncomputable def servedBuffer (s : σ) (b : Bytes) : Burst σ :=
  servedAs exec s (drain (checkedValue frameSize) b).1 (drain (checkedValue frameSize) b).2

end Loop

section Served

variable {frameSize : ℕ} {σ : Type} {exec : σ → Frame → Option (Frame × σ)}

theorem serveLoop_eq : ∀ {fuel : ℕ} {s : σ} {b : Buffer}, b.1.length < fuel →
    serveLoop frameSize exec fuel s b = servedBuffer frameSize exec s b.1
  | fuel + 1, s, b, hlt => by
    unfold serveLoop servedBuffer
    rw [parseFrameAt_eq_checked]
    cases hw : checkedValue frameSize b.1 with
    | ok x =>
      obtain ⟨f, r⟩ := x
      obtain ⟨c, hb, hc⟩ := consumes_checkedValue _ _ _ hw
      have hlen := congrArg List.length hb
      rw [List.length_append] at hlen
      have hdrop : b.1.drop (b.1.length - r.length) = r := by
        have hcons : b.1.length - r.length = c.length := by omega
        rw [hcons, hb, List.drop_left]
      have hrest (s' : σ) :
          serveLoop frameSize exec fuel s' (b.drop (b.1.length - r.length)) =
            servedBuffer frameSize exec s' r := by
        have hshort : (b.drop (b.1.length - r.length)).1.length < fuel := by
          change (b.1.drop _).length < fuel
          rw [hdrop]
          omega
        rw [serveLoop_eq hshort]
        exact congrArg _ hdrop
      simp only [drain_ok consumes_checkedValue hw, servedAs, hrest, servedBuffer]
    | error e =>
      cases e with
      | incomplete => simp only [drain_incomplete hw, servedAs]
      | invalid e =>
        cases e with
        | protocol e => simp only [drain_invalid hw, servedAs]
        | panic => simp only [drain_invalid hw, servedAs]
      | tooDeep => exact absurd hw (checkedValue_ne_tooDeep b.1)

theorem serveBuffer_eq (s : σ) (b : Buffer) :
    serveBuffer frameSize exec s b = servedBuffer frameSize exec s b.1 :=
  serveLoop_eq (Nat.lt_succ_self _)

/-! ## Frames that are answered -/

theorem answers_cons_eq_some {s s' : σ} {f : Frame} {fs : List Frame} {out : Bytes} :
    answers exec s (f :: fs) = some (out, s') ↔ isSyncCommand f = false ∧
      ∃ response s₁ out₁, exec s f = some (response, s₁) ∧ answers exec s₁ fs = some (out₁, s') ∧
        out = writeFrame response ++ out₁ := by
  rw [answers]
  cases isSyncCommand f with
  | true => simp
  | false =>
    cases hexec : exec s f with
    | none => simp
    | some r =>
      obtain ⟨response, s₁⟩ := r
      simp only [Bool.false_eq_true, if_false, Option.bind_some, Option.map_eq_some_iff, true_and,
        Prod.exists, Prod.mk.injEq, Option.some.injEq]
      constructor
      · rintro ⟨out₁, _, hans, rfl, rfl⟩
        exact ⟨response, s₁, out₁, ⟨rfl, rfl⟩, hans, rfl⟩
      · rintro ⟨_, _, out₁, ⟨rfl, rfl⟩, hans, rfl⟩
        exact ⟨out₁, s', hans, rfl, rfl⟩

theorem answers_append {gs : List Frame} : ∀ {fs : List Frame} {s s' : σ} {out : Bytes},
    answers exec s fs = some (out, s') →
      answers exec s (fs ++ gs) = (answers exec s' gs).map fun p => (out ++ p.1, p.2)
  | [], s, s', out, h => by
    obtain ⟨rfl, rfl⟩ := Prod.mk.inj (Option.some.inj h)
    simp
  | f :: fs, s, s', out, h => by
    obtain ⟨hsync, response, s₁, out₁, hexec, hans, rfl⟩ := answers_cons_eq_some.mp h
    rw [List.cons_append, answers, hsync, hexec]
    simp only [Bool.false_eq_true, if_false, Option.bind_some, answers_append hans,
      Option.map_map, Function.comp_def, List.append_assoc]

/-- Frames that are answered come before all that follows. -/
theorem servedAs_append {gs : List Frame} {rest : Rest UInt8 Fault} :
    ∀ {fs : List Frame} {s s' : σ} {out : Bytes}, answers exec s fs = some (out, s') →
      servedAs exec s (fs ++ gs) rest = ⟨fs ++ (servedAs exec s' gs rest).frames,
        out ++ (servedAs exec s' gs rest).out, (servedAs exec s' gs rest).next⟩
  | [], s, s', out, h => by
    obtain ⟨rfl, rfl⟩ := Prod.mk.inj (Option.some.inj h)
    rfl
  | f :: fs, s, s', out, h => by
    obtain ⟨hsync, response, s₁, out₁, hexec, hans, rfl⟩ := answers_cons_eq_some.mp h
    rw [List.cons_append, servedAs, hsync, hexec]
    simp only [Bool.false_eq_true, if_false, servedAs_append hans, Burst.answered,
      List.cons_append, List.append_assoc]

/-- The frames are all answered, or there is a first one that is not. -/
theorem answers_cases : ∀ (fs : List Frame) (s : σ), (answers exec s fs).isSome ∨
    ∃ gs f hs out s', fs = gs ++ f :: hs ∧ answers exec s gs = some (out, s') ∧
      (isSyncCommand f = true ∨ isSyncCommand f = false ∧ exec s' f = none)
  | [], _ => .inl rfl
  | f :: fs, s => by
    cases hsync : isSyncCommand f with
    | true => exact .inr ⟨[], f, fs, [], s, rfl, rfl, .inl hsync⟩
    | false =>
      cases hexec : exec s f with
      | none => exact .inr ⟨[], f, fs, [], s, rfl, rfl, .inr ⟨hsync, hexec⟩⟩
      | some r =>
        obtain ⟨response, s₁⟩ := r
        rcases answers_cases fs s₁ with hsome | ⟨gs, g, hs, out, s', rfl, hans, hstop⟩
        · obtain ⟨⟨out, s'⟩, hans⟩ := Option.isSome_iff_exists.mp hsome
          have hcons := answers_cons_eq_some.mpr ⟨hsync, response, s₁, out, hexec, hans, rfl⟩
          exact .inl (Option.isSome_of_eq_some hcons)
        · exact .inr ⟨f :: gs, g, hs, _, s', rfl,
            answers_cons_eq_some.mpr ⟨hsync, response, s₁, out, hexec, hans, rfl⟩, hstop⟩

/-- A frame that is not answered is the last one that is looked at. -/
theorem servedAs_of_answers_none {fs gs : List Frame} {s : σ} (rest rest' : Rest UInt8 Fault)
    (h : answers exec s fs = none) :
    servedAs exec s (fs ++ gs) rest' = servedAs exec s fs rest ∧
      ∀ s' r, (servedAs exec s fs rest).next ≠ .reading s' r := by
  rcases answers_cases fs s with hsome | ⟨fs, f, hs, out, s', rfl, hans, hstop⟩
  · rw [h] at hsome
    cases hsome
  · rw [List.append_assoc, servedAs_append hans, servedAs_append hans, List.cons_append, servedAs,
      servedAs]
    rcases hstop with hsync | ⟨hsync, hexec⟩
    · simp [hsync]
    · simp [hsync, hexec]

theorem servedAs_panicked_iff {fs : List Frame} {rest : Rest UInt8 Fault} {s : σ} :
    (servedAs exec s fs rest).next = .panicked ↔
      (rest = .invalid .panic ∧ (answers exec s fs).isSome) ∨
        ∃ gs f hs out s', fs = gs ++ f :: hs ∧ answers exec s gs = some (out, s') ∧
          isSyncCommand f = false ∧ exec s' f = none := by
  constructor
  · intro hnext
    rcases answers_cases fs s with hsome | ⟨gs, f, hs, out, s', heq, hans, hstop⟩
    · obtain ⟨⟨out, s'⟩, hans⟩ := Option.isSome_iff_exists.mp hsome
      rw [← List.append_nil fs, servedAs_append hans] at hnext
      cases rest with
      | incomplete r => cases hnext
      | invalid e =>
        cases e with
        | protocol e => cases hnext
        | panic => exact .inl ⟨rfl, hsome⟩
    · rcases hstop with hsync | ⟨hsync, hexec⟩
      · rw [heq, servedAs_append hans, servedAs, hsync] at hnext
        cases hnext
      · exact .inr ⟨gs, f, hs, out, s', heq, hans, hsync, hexec⟩
  · rintro (⟨rfl, hsome⟩ | ⟨gs, f, hs, out, s', rfl, hans, hsync, hexec⟩)
    · obtain ⟨⟨out, s'⟩, hans⟩ := Option.isSome_iff_exists.mp hsome
      rw [← List.append_nil fs, servedAs_append hans]
      rfl
    · rw [servedAs_append hans, servedAs, hsync, hexec]
      rfl

/-- A buffer ends a connection by a panic exactly if a panic is met in it. -/
theorem meetsPanic_iff {s : σ} {b : Bytes} :
    MeetsPanic frameSize exec s b ↔ (servedBuffer frameSize exec s b).next = .panicked := by
  rw [servedBuffer, servedAs_panicked_iff, MeetsPanic]
  refine or_congr_left ?_
  constructor
  · rintro ⟨fs, hdrain, hsome⟩
    rw [hdrain]
    exact ⟨rfl, hsome⟩
  · rintro ⟨hrest, hsome⟩
    exact ⟨_, Prod.ext rfl hrest, hsome⟩

/-- What is read later comes after the frames that are answered. -/
theorem servedBuffer_append {s s' : σ} {b r : Bytes} {fs : List Frame} {out : Bytes} (x : Bytes)
    (hdrain : drain (checkedValue frameSize) b = (fs, .incomplete r))
    (hans : answers exec s fs = some (out, s')) : servedBuffer frameSize exec s (b ++ x) =
      ⟨fs ++ (servedBuffer frameSize exec s' (r ++ x)).frames,
        out ++ (servedBuffer frameSize exec s' (r ++ x)).out,
        (servedBuffer frameSize exec s' (r ++ x)).next⟩ := by
  rw [servedBuffer, drain_append_of_incomplete consumes_checkedValue checkedValue_ne_tooDeep
    stable_checkedValue x hdrain, servedAs_append hans]
  rfl

/-- What is read later does not matter after the end of a connection. -/
theorem servedBuffer_of_answers_none {s : σ} {b : Bytes} {fs : List Frame}
    {rest : Rest UInt8 Fault} (x : Bytes)
    (hdrain : drain (checkedValue frameSize) b = (fs, rest)) (hans : answers exec s fs = none) :
    servedBuffer frameSize exec s (b ++ x) = servedBuffer frameSize exec s b ∧
      ∀ s' r, (servedBuffer frameSize exec s b).next ≠ .reading s' r := by
  have hstop (gs : List Frame) (rest' : Rest UInt8 Fault) :=
    @servedAs_of_answers_none _ exec fs gs s rest rest' hans
  rw [servedBuffer, servedBuffer, hdrain]
  refine ⟨?_, (hstop [] rest).2⟩
  cases rest with
  | invalid e =>
    rw [drain_append_of_invalid consumes_checkedValue checkedValue_ne_tooDeep stable_checkedValue x
      hdrain]
  | incomplete r =>
    rw [drain_append_of_incomplete consumes_checkedValue checkedValue_ne_tooDeep
      stable_checkedValue x hdrain]
    exact (hstop _ _).1

/-! ## Pieces -/

/-- What a connection does if it is read to its end in one piece. -/
def Burst.served (b : Burst σ) : List Frame × Bytes :=
  match b.next with
  | .panicked => (b.frames, [])
  | _ => (b.frames, b.out)

theorem Burst.served_of_ne {b : Burst σ} (h : b.next ≠ .panicked) :
    b.served = (b.frames, b.out) := by
  unfold Burst.served
  split
  · next hnext => exact absurd hnext h
  · rfl

theorem Burst.served_of_panicked {b : Burst σ} (h : b.next = .panicked) :
    b.served = (b.frames, []) := by
  rw [Burst.served, h]

theorem handleConnection_reading {c buf r : Bytes} {s s' : σ} (cs : List Bytes)
    (hnext : (servedBuffer frameSize exec s (buf ++ c)).next = .reading s' r)
    (hfits : (buf ++ c).length ≤ isizeMax) :
    handleConnection frameSize exec (c :: cs) s buf =
      ((servedBuffer frameSize exec s (buf ++ c)).frames ++
          (handleConnection frameSize exec cs s' r).1,
        (servedBuffer frameSize exec s (buf ++ c)).out ++
          (handleConnection frameSize exec cs s' r).2) := by
  have hserve : serveBuffer frameSize exec s ⟨buf ++ c, hfits⟩ = _ := serveBuffer_eq _ _
  simp only [handleConnection, hfits, dif_pos, hserve, hnext]

theorem handleConnection_ended {c buf : Bytes} {s : σ} (cs : List Bytes)
    (hnext : ∀ s' r, (servedBuffer frameSize exec s (buf ++ c)).next ≠ .reading s' r)
    (hfits : (buf ++ c).length ≤ isizeMax) :
    handleConnection frameSize exec (c :: cs) s buf =
      (servedBuffer frameSize exec s (buf ++ c)).served := by
  have hserve : serveBuffer frameSize exec s ⟨buf ++ c, hfits⟩ = _ := serveBuffer_eq _ _
  simp only [handleConnection, hfits, dif_pos, hserve, Burst.served]
  split
  · next hreading => exact absurd hreading (hnext _ _)
  · next hover => rw [hover]
  · next hpanicked => rw [hpanicked]

/-- A panic ends the connection, and the replies of its read are lost. -/
theorem handleConnection_panicked {c buf : Bytes} {s : σ} (cs : List Bytes)
    (hnext : (servedBuffer frameSize exec s (buf ++ c)).next = .panicked)
    (hfits : (buf ++ c).length ≤ isizeMax) :
    handleConnection frameSize exec (c :: cs) s buf =
      ((servedBuffer frameSize exec s (buf ++ c)).frames, []) := by
  have hended (s' : σ) (r : Bytes) :
      (servedBuffer frameSize exec s (buf ++ c)).next ≠ .reading s' r := by
    rw [hnext]
    exact nofun
  rw [handleConnection_ended cs hended hfits, Burst.served_of_panicked hnext]

/-- Without a line end nothing is complete. -/
theorem wireValue_of_no_crlf {b : Bytes} (h : ¬ Utf8.HasCrlf b) :
    wireValue b = .error .incomplete := by
  cases b with
  | nil => rfl
  | cons first b =>
    have hb : ¬ Utf8.HasCrlf b := fun hc => h (Utf8.hasCrlf_cons.mpr (.inr hc))
    have hread : readLine b = .error .incomplete := readLine_of_no_crlf hb
    have hint (what : String) : readInt what b = .error .incomplete := bind_error hread
    rw [wireValue]
    cases htag : parseTagged (parseValue (first :: b).length) first with
    | none =>
      rw [parseValue_cons_none htag]
      exact bind_error (readLine_of_no_crlf h)
    | some p =>
      rw [parseValue_cons_some htag]
      refine @parseTagged_forall _ (fun p => p b = .error .incomplete) ?_ ?_ ?_ ?_ ?_ first p htag
      · exact bind_error hread
      · exact bind_error hread
      · exact bind_error (hint _)
      · exact bind_error (hint _)
      · exact bind_error (hint _)

theorem hasRoom_of_no_crlf {b : Bytes} (h : ¬ Utf8.HasCrlf b) : HasRoom frameSize b := by
  intro c hopens
  obtain ⟨r, count, r', rfl, hcount, -⟩ := opens_iff.mp hopens
  have hr : ¬ Utf8.HasCrlf r := fun hc => h (Utf8.hasCrlf_cons.mpr (.inr hc))
  rw [readInt, bind_error (readLine_of_no_crlf hr)] at hcount
  cases hcount

theorem checkedValue_of_no_crlf {b : Bytes} (h : ¬ Utf8.HasCrlf b) :
    checkedValue frameSize b = .error .incomplete := by
  rw [checkedValue_of_hasRoom (hasRoom_of_no_crlf h), wireValue_of_no_crlf h]
  rfl

theorem checkedValue_nil : checkedValue frameSize [] = .error .incomplete :=
  checkedValue_of_no_crlf (by simp [Utf8.HasCrlf])

/-- Where no frame is complete, the connection waits for more. -/
theorem servedBuffer_incomplete {s : σ} {b : Bytes}
    (h : checkedValue frameSize b = .error .incomplete) :
    servedBuffer frameSize exec s b = ⟨[], [], .reading s b⟩ := by
  rw [servedBuffer, drain_incomplete h]
  rfl

theorem writeFrame_ne_nil (f : Frame) : writeFrame f ≠ [] :=
  List.ne_nil_of_length_pos (length_writeFrame_pos f)

/-- The frames before a protocol error, and the error, whatever is read with it. -/
theorem servedBuffer_of_meetsError {s : σ} {b : Bytes} (h : MeetsError frameSize exec s b) :
    ∃ fs out s', out ≠ [] ∧ ∀ x, servedBuffer frameSize exec s (b ++ x) =
      ⟨fs, out, .reading s' []⟩ := by
  obtain ⟨fs, e, hdrain, hsome⟩ := h
  obtain ⟨⟨out, s'⟩, hans⟩ := Option.isSome_iff_exists.mp hsome
  refine ⟨fs, out ++ writeFrame (protocolError e), s', ?_, fun x => ?_⟩
  · exact List.append_ne_nil_of_right_ne_nil out (writeFrame_ne_nil _)
  · have hserved := @servedAs_append _ exec [] (.invalid (.protocol e)) fs s s' out hans
    rw [List.append_nil] at hserved
    rw [servedBuffer, drain_append_of_invalid consumes_checkedValue checkedValue_ne_tooDeep
      stable_checkedValue x hdrain, hserved]
    simp [servedAs]

theorem ne_nil_of_meetsError {s : σ} {b : Bytes} (h : MeetsError frameSize exec s b) :
    b ≠ [] := by
  rintro rfl
  obtain ⟨fs, e, hdrain, -⟩ := h
  rw [drain_incomplete checkedValue_nil] at hdrain
  cases hdrain

/-- A connection is silent until a line ends. -/
theorem handleConnection_of_no_crlf : ∀ {cs : List Bytes} {s : σ} {buf : Bytes},
    ¬ Utf8.HasCrlf (buf ++ cs.flatten) → handleConnection frameSize exec cs s buf = ([], [])
  | [], _, _, _ => rfl
  | c :: cs, s, buf, h => by
    rw [List.flatten_cons, ← List.append_assoc] at h
    have hstart : ¬ Utf8.HasCrlf (buf ++ c) :=
      fun hc => h (hc.trans (List.prefix_append ..).isInfix)
    by_cases hfits : (buf ++ c).length ≤ isizeMax
    · have hserve : servedBuffer frameSize exec s (buf ++ c) = ⟨[], [], .reading s (buf ++ c)⟩ :=
        servedBuffer_incomplete (checkedValue_of_no_crlf hstart)
      rw [handleConnection_reading cs (congrArg Burst.next hserve) hfits, hserve,
        handleConnection_of_no_crlf h]
      rfl
    · rw [handleConnection, dif_neg hfits]

/-- An error in the stream stays one after what has been served. -/
theorem MeetsError.of_rest {s s' : σ} {b r x : Bytes} {fs : List Frame} {out : Bytes}
    (hdrain : drain (checkedValue frameSize) b = (fs, .incomplete r))
    (hans : answers exec s fs = some (out, s')) (h : MeetsError frameSize exec s' (r ++ x)) :
    MeetsError frameSize exec s (b ++ x) := by
  obtain ⟨gs, e, hgs, hsome⟩ := h
  refine ⟨fs ++ gs, e, ?_, ?_⟩
  · rw [drain_append_of_incomplete consumes_checkedValue checkedValue_ne_tooDeep
      stable_checkedValue x hdrain, hgs]
  · rw [answers_append hans, Option.isSome_map]
    exact hsome

theorem noLineAfterError_rest {s s' : σ} {b r t : Bytes} {fs : List Frame} {out : Bytes}
    (hdrain : drain (checkedValue frameSize) b = (fs, .incomplete r))
    (hans : answers exec s fs = some (out, s'))
    (h : ∀ p x, b ++ t = p ++ x → MeetsError frameSize exec s p → ¬ Utf8.HasCrlf x) :
    ∀ p x, r ++ t = p ++ x → MeetsError frameSize exec s' p → ¬ Utf8.HasCrlf x := by
  intro p x hsplit hp
  have hrest := (drain_rest consumes_checkedValue checkedValue_ne_tooDeep hdrain).2
  rcases List.append_eq_append_iff.mp hsplit with ⟨w, rfl, hx⟩ | ⟨w, rfl, rfl⟩
  · -- The error comes after `b`.
    exact h (b ++ w) x (by rw [hx, List.append_assoc]) (hp.of_rest hdrain hans)
  · -- Nothing is decided about a beginning of what is left of `b`.
    obtain ⟨gs, e, hgs, -⟩ := hp
    have hinc := incomplete_of_append checkedValue_ne_tooDeep stable_checkedValue hrest
    rw [drain_incomplete hinc] at hgs
    cases hgs

/-- A frame that is drained and answered is at the front. -/
theorem answersFirst_of_drain {s : σ} {b : Bytes} {f : Frame} {fs : List Frame}
    {rest : Rest UInt8 Fault} (x : Bytes)
    (hdrain : drain (checkedValue frameSize) b = (f :: fs, rest))
    (hsome : (answers exec s (f :: fs)).isSome) : AnswersFirst frameSize exec s (b ++ x) := by
  obtain ⟨⟨out, s'⟩, hans⟩ := Option.isSome_iff_exists.mp hsome
  obtain ⟨hsync, response, s₁, out₁, hexec, -⟩ := answers_cons_eq_some.mp hans
  cases hv : checkedValue frameSize b with
  | ok y =>
    obtain ⟨g, r⟩ := y
    rw [drain_ok consumes_checkedValue hv] at hdrain
    obtain rfl := (List.cons.inj (Prod.mk.inj hdrain).1).1
    exact ⟨g, r ++ x, stable_checkedValue.ok hv x, hsync, Option.isSome_of_eq_some hexec⟩
  | error e =>
    cases e with
    | incomplete =>
      rw [drain_incomplete hv] at hdrain
      cases hdrain
    | invalid e =>
      rw [drain_invalid hv] at hdrain
      cases hdrain
    | tooDeep => exact absurd hv (checkedValue_ne_tooDeep b)

/-- If nothing is drained, then all is left. -/
theorem drain_nil {b r : Bytes}
    (hdrain : drain (checkedValue frameSize) b = ([], .incomplete r)) : b = r := by
  cases hv : checkedValue frameSize b with
  | ok y =>
    rw [drain_ok consumes_checkedValue hv] at hdrain
    cases hdrain
  | error e =>
    cases e with
    | incomplete =>
      rw [drain_incomplete hv] at hdrain
      exact Rest.incomplete.inj (Prod.mk.inj hdrain).2
    | invalid e =>
      rw [drain_invalid hv] at hdrain
      cases hdrain
    | tooDeep => exact absurd hv (checkedValue_ne_tooDeep b)

/-- However it is cut, a stream that there is room for is served as in one piece. -/
theorem handleConnection_eq : ∀ {cs : List Bytes} {s : σ} {buf : Bytes},
    checkedValue frameSize buf = .error .incomplete →
      (buf ++ cs.flatten).length ≤ isizeMax →
      (∀ p t, buf ++ cs.flatten = p ++ t → MeetsError frameSize exec s p → ¬ Utf8.HasCrlf t) →
      (AnswersFirst frameSize exec s (buf ++ cs.flatten) →
        ¬ MeetsPanic frameSize exec s (buf ++ cs.flatten)) →
      handleConnection frameSize exec cs s buf =
        (servedBuffer frameSize exec s (buf ++ cs.flatten)).served
  | [], s, buf, hbuf, _, _, _ => by
    rw [List.flatten_nil, List.append_nil, servedBuffer, drain_incomplete hbuf]
    rfl
  | c :: cs, s, buf, hbuf, hroom, herror, hpanic => by
    rw [List.flatten_cons, ← List.append_assoc] at hroom herror hpanic ⊢
    have hfits : (buf ++ c).length ≤ isizeMax := by
      rw [List.length_append] at hroom
      omega
    obtain ⟨fs, rest, hdrain⟩ :
        ∃ fs rest, drain (checkedValue frameSize) (buf ++ c) = (fs, rest) := ⟨_, _, rfl⟩
    cases hans : answers exec s fs with
    | none =>
      -- The connection ends with this piece.
      obtain ⟨heq, hended⟩ := servedBuffer_of_answers_none cs.flatten hdrain hans
      rw [handleConnection_ended cs hended hfits, heq]
    | some p =>
      obtain ⟨out, s'⟩ := p
      have hsome : (answers exec s fs).isSome := Option.isSome_of_eq_some hans
      cases rest with
      | invalid e =>
        cases e with
        | protocol e =>
          have herr : MeetsError frameSize exec s (buf ++ c) := ⟨fs, e, hdrain, hsome⟩
          obtain ⟨gs, out', s'', -, hserve⟩ := servedBuffer_of_meetsError herr
          have hone := hserve []
          rw [List.append_nil] at hone
          have hquiet : ¬ Utf8.HasCrlf ([] ++ cs.flatten) := herror _ _ rfl herr
          rw [handleConnection_reading cs (congrArg Burst.next hone) hfits, hone,
            hserve cs.flatten, handleConnection_of_no_crlf hquiet,
            Burst.served_of_ne (by simp)]
          simp
        | panic =>
          have hall : servedBuffer frameSize exec s (buf ++ c ++ cs.flatten) =
              servedBuffer frameSize exec s (buf ++ c) := by
            rw [servedBuffer, servedBuffer, drain_append_of_invalid consumes_checkedValue
              checkedValue_ne_tooDeep stable_checkedValue cs.flatten hdrain, hdrain]
          have hnext : (servedBuffer frameSize exec s (buf ++ c)).next = .panicked :=
            meetsPanic_iff.mp (.inl ⟨fs, hdrain, hsome⟩)
          rw [hall, handleConnection_panicked cs hnext hfits, Burst.served_of_panicked hnext]
      | incomplete r =>
        have hone := servedBuffer_append [] hdrain hans
        have hall := servedBuffer_append cs.flatten hdrain hans
        have hr := (drain_rest consumes_checkedValue checkedValue_ne_tooDeep hdrain).2
        have hrest : servedBuffer frameSize exec s' r = ⟨[], [], .reading s' r⟩ :=
          servedBuffer_incomplete hr
        simp only [List.append_nil, hrest] at hone
        -- A panic later on loses no replies, or there are none.
        have hlost (hp : MeetsPanic frameSize exec s' (r ++ cs.flatten)) : fs = [] := by
          cases fs with
          | nil => rfl
          | cons f fs =>
            refine absurd (meetsPanic_iff.mpr ?_)
              (hpanic (answersFirst_of_drain cs.flatten hdrain hsome))
            rw [hall]
            exact meetsPanic_iff.mp hp
        have hlater : handleConnection frameSize exec cs s' r =
            (servedBuffer frameSize exec s' (r ++ cs.flatten)).served := by
          refine handleConnection_eq hr ?_ (noLineAfterError_rest hdrain hans herror) ?_
          · obtain ⟨u, hu⟩ := (drain_rest consumes_checkedValue checkedValue_ne_tooDeep hdrain).1
            rw [hu, List.append_assoc, List.length_append] at hroom
            omega
          · intro hfirst hp
            obtain rfl := hlost hp
            obtain ⟨-, rfl⟩ := Prod.mk.inj (Option.some.inj hans)
            obtain rfl := drain_nil hdrain
            exact hpanic hfirst hp
        rw [handleConnection_reading cs (congrArg Burst.next hone) hfits, hone, hlater, hall]
        by_cases hp : (servedBuffer frameSize exec s' (r ++ cs.flatten)).next = .panicked
        · obtain rfl := hlost (meetsPanic_iff.mpr hp)
          obtain ⟨rfl, -⟩ := Prod.mk.inj (Option.some.inj hans)
          rw [Burst.served_of_panicked hp, Burst.served_of_panicked (by exact hp)]
          rfl
        · rw [Burst.served_of_ne hp, Burst.served_of_ne (by exact hp)]

/-! ## Two ways of cutting a stream -/

/-- A stream that no buffer has room for leads to nothing in one piece, and so does each other way
of cutting it if its beginning is silent. -/
theorem handleConnection_of_silent {stream : Bytes}
    (h : Silent frameSize (stream.take isizeMax)) : ∀ {cs : List Bytes} {s : σ} {buf : Bytes},
      buf ++ cs.flatten = stream → handleConnection frameSize exec cs s buf = ([], [])
  | [], _, _, _ => rfl
  | c :: cs, s, buf, hcs => by
    by_cases hfits : (buf ++ c).length ≤ isizeMax
    · have hstart : ∃ x, buf ++ c ++ x = stream.take isizeMax := by
        rw [← hcs, List.flatten_cons, ← List.append_assoc, List.take_append,
          List.take_of_length_le hfits]
        exact ⟨_, rfl⟩
      obtain ⟨x, hx⟩ := hstart
      rw [← hx] at h
      cases hv : checkedValue frameSize (buf ++ c) with
      | ok y =>
        obtain ⟨f, r⟩ := y
        have hsync : isSyncCommand f = true := h.1 f (r ++ x) (stable_checkedValue.ok hv x)
        have hserve : servedBuffer frameSize exec s (buf ++ c) = ⟨[], [], .handedOver⟩ := by
          rw [servedBuffer, drain_ok consumes_checkedValue hv, servedAs, hsync]
          rfl
        rw [handleConnection_ended cs (by rw [hserve]; exact fun _ _ h => nomatch h) hfits, hserve]
        rfl
      | error e =>
        cases e with
        | incomplete =>
          have hserve : servedBuffer frameSize exec s (buf ++ c) =
              ⟨[], [], .reading s (buf ++ c)⟩ := servedBuffer_incomplete hv
          rw [hx] at h
          have hlater : handleConnection frameSize exec cs s (buf ++ c) = ([], []) :=
            handleConnection_of_silent h (by rw [← hcs, List.flatten_cons, List.append_assoc])
          rw [handleConnection_reading cs (congrArg Burst.next hserve) hfits, hserve, hlater]
          rfl
        | invalid e =>
          cases e with
          | protocol e => exact absurd (stable_checkedValue.invalid hv x) (h.2 e)
          | panic =>
            have hserve : servedBuffer frameSize exec s (buf ++ c) = ⟨[], [], .panicked⟩ := by
              rw [servedBuffer, drain_invalid hv]
              rfl
            rw [handleConnection_panicked cs (congrArg Burst.next hserve) hfits, hserve]
        | tooDeep => exact absurd hv (checkedValue_ne_tooDeep _)
    · rw [handleConnection, dif_neg hfits]

/-- The frames of a read come before those of later reads. -/
theorem handleConnection_frames (c buf : Bytes) (s : σ) (cs : List Bytes)
    (hfits : (buf ++ c).length ≤ isizeMax) : ∃ l,
      (handleConnection frameSize exec (c :: cs) s buf).1 =
        (servedBuffer frameSize exec s (buf ++ c)).frames ++ l := by
  cases hnext : (servedBuffer frameSize exec s (buf ++ c)).next with
  | reading s' r =>
    rw [handleConnection_reading cs hnext hfits]
    exact ⟨_, rfl⟩
  | handedOver =>
    rw [handleConnection_ended cs (by rw [hnext]; exact fun _ _ h => nomatch h) hfits,
      Burst.served_of_ne (by rw [hnext]; exact fun h => nomatch h)]
    exact ⟨[], (List.append_nil _).symm⟩
  | panicked =>
    rw [handleConnection_panicked cs hnext hfits]
    exact ⟨[], (List.append_nil _).symm⟩

/-- A frame at the front is executed, unless it is a `SYNC` command. -/
theorem frames_ne_nil {s : σ} {b r : Bytes} {f : Frame}
    (hv : checkedValue frameSize b = .ok (f, r)) (hsync : isSyncCommand f = false) :
    (servedBuffer frameSize exec s b).frames ≠ [] := by
  rw [servedBuffer, drain_ok consumes_checkedValue hv, servedAs, hsync]
  cases exec s f with
  | none => exact List.cons_ne_nil _ _
  | some p => exact List.cons_ne_nil _ _

section Cuts

variable {s : σ} {stream : Bytes}
  (h : ∀ cs cs' : List Bytes, (∀ c ∈ cs, c ≠ []) → (∀ c ∈ cs', c ≠ []) → cs.flatten = stream →
    cs'.flatten = stream →
      handleConnection frameSize exec cs s [] = handleConnection frameSize exec cs' s [])
include h

/-- What is behind an error is dropped in one piece, and a line in a piece of its own is served. -/
theorem no_crlf_of_cuts (hfits : stream.length ≤ isizeMax) {p t : Bytes} (hstream : stream = p ++ t)
    (herr : MeetsError frameSize exec s p) : ¬ Utf8.HasCrlf t := by
  rintro ⟨u, v, rfl⟩
  obtain ⟨fs, out, s', -, hserve⟩ := servedBuffer_of_meetsError herr
  have hp : p ≠ [] := ne_nil_of_meetsError herr
  have hlength : (p ++ u).length + (0x0D :: 0x0A :: v).length ≤ isizeMax := by
    rw [hstream] at hfits
    simp only [List.length_append, List.length_cons, List.length_nil] at hfits ⊢
    omega
  have hone : (handleConnection frameSize exec [stream] s []).1 = fs := by
    have hserve : servedBuffer frameSize exec s ([] ++ stream) = _ :=
      (congrArg _ hstream).trans (hserve _)
    rw [handleConnection_reading [] (congrArg Burst.next hserve) hfits, hserve]
    exact List.append_nil fs
  -- A piece that starts with a line end is an empty command.
  have hempty : checkedValue frameSize ([] ++ 0x0D :: 0x0A :: v) = .ok (.array (some []), v) := by
    refine checkedValue_eq_ok.mpr ⟨fun c hopens => ?_, rfl⟩
    obtain ⟨r, -, -, heq, -⟩ := opens_iff.mp hopens
    cases heq
  have htwo : (handleConnection frameSize exec [p ++ u, 0x0D :: 0x0A :: v] s []).1 ≠ fs := by
    have hfirst : servedBuffer frameSize exec s ([] ++ (p ++ u)) = _ := hserve u
    have hlater : ∃ l, (handleConnection frameSize exec [0x0D :: 0x0A :: v] s' []).1 = _ ++ l :=
      handleConnection_frames _ [] s' [] (by simp only [List.nil_append]; omega)
    obtain ⟨l, hl⟩ := hlater
    rw [handleConnection_reading _ (congrArg Burst.next hfirst)
      (by simp only [List.nil_append]; omega), hfirst, hl]
    intro heq
    have hnil := List.append_right_eq_self.mp heq
    exact frames_ne_nil hempty rfl (List.append_eq_nil_iff.mp hnil).1
  refine htwo (Eq.trans ?_ hone)
  exact congrArg Prod.fst (h [p ++ u, 0x0D :: 0x0A :: v] [stream] (by simp [hp])
    (by simp [hstream, hp]) (by simp [hstream]) (by simp))

/-- The reply to a frame is written if its bytes are a piece of their own, and not in one piece
with a panic. -/
theorem no_panic_of_cuts (hfits : stream.length ≤ isizeMax)
    (hfirst : AnswersFirst frameSize exec s stream) : ¬ MeetsPanic frameSize exec s stream := by
  intro hpanic
  have hnext := meetsPanic_iff.mp hpanic
  obtain ⟨f, r, hv, hsync, hsome⟩ := hfirst
  obtain ⟨⟨response, s'⟩, hexec⟩ := Option.isSome_iff_exists.mp hsome
  obtain ⟨c, hstream, hc⟩ := local_checkedValue _ _ _ hv
  have halone := hc []
  rw [List.append_nil] at halone
  have hserve : servedBuffer frameSize exec s c = ⟨[f], writeFrame response, .reading s' []⟩ := by
    rw [servedBuffer, drain_ok consumes_checkedValue halone, servedAs, hsync, hexec,
      drain_incomplete checkedValue_nil]
    simp [servedAs, Burst.answered]
  have hcne : c ≠ [] := by
    rintro rfl
    rw [checkedValue_nil] at halone
    cases halone
  have hrne : r ≠ [] := by
    rintro rfl
    rw [hstream, List.append_nil, hserve] at hnext
    cases hnext
  have hone : (handleConnection frameSize exec [stream] s []).2 = [] := by
    have hlast : (servedBuffer frameSize exec s ([] ++ stream)).next = .panicked := hnext
    rw [handleConnection_panicked [] hlast hfits]
  have htwo : (handleConnection frameSize exec [c, r] s []).2 ≠ [] := by
    have hlen : c.length ≤ isizeMax := by
      rw [hstream, List.length_append] at hfits
      omega
    have hfront : servedBuffer frameSize exec s ([] ++ c) = _ := hserve
    rw [handleConnection_reading [r] (congrArg Burst.next hfront) hlen, hfront]
    exact List.append_ne_nil_of_left_ne_nil (writeFrame_ne_nil response) _
  refine htwo (Eq.trans ?_ hone)
  exact congrArg Prod.snd (h [c, r] [stream] (by simp [hcne, hrne]) (by simp [hstream, hcne])
    (by simp [hstream]) (by simp))

/-- What is at the front is served, unless all arrives in one piece that there is no room for. -/
theorem silent_of_cuts (hlong : ¬ stream.length ≤ isizeMax) :
    Silent frameSize (stream.take isizeMax) := by
  have hne : stream ≠ [] := by
    rintro rfl
    exact hlong (Nat.zero_le _)
  have htake : (stream.take isizeMax).length = isizeMax := List.length_take_of_le (by omega)
  have hone : handleConnection frameSize exec [stream] s [] = ([], []) := by
    rw [handleConnection, dif_neg (by exact hlong)]
  have htwo : handleConnection frameSize exec [stream.take isizeMax, stream.drop isizeMax] s [] =
      ([], []) := by
    rw [← hone]
    refine h _ _ ?_ (by simp [hne]) (by simp) (by simp)
    simp only [List.mem_cons, List.not_mem_nil, or_false, forall_eq_or_imp, forall_eq]
    refine ⟨List.ne_nil_of_length_pos ?_, List.ne_nil_of_length_pos ?_⟩
    · rw [htake]
      decide
    · rw [List.length_drop]
      omega
  refine ⟨fun f r hv => ?_, fun e hv => ?_⟩
  · by_contra hsync
    have hall : ∃ l, (handleConnection frameSize exec _ s []).1 = _ ++ l :=
      handleConnection_frames (stream.take isizeMax) [] s [stream.drop isizeMax] htake.le
    obtain ⟨l, hl⟩ := hall
    rw [htwo] at hl
    exact frames_ne_nil hv (Bool.eq_false_iff.mpr hsync) (List.append_eq_nil_iff.mp hl.symm).1
  · have herr : MeetsError frameSize exec s (stream.take isizeMax) :=
      ⟨[], e, drain_invalid hv, rfl⟩
    obtain ⟨fs, out, s', hout, hserve⟩ := servedBuffer_of_meetsError herr
    have hfront := hserve []
    rw [List.append_nil] at hfront
    have hnext : (servedBuffer frameSize exec s ([] ++ stream.take isizeMax)).next =
        .reading s' [] := congrArg Burst.next hfront
    rw [handleConnection_reading _ hnext htake.le, List.nil_append, hfront] at htwo
    exact hout (List.append_eq_nil_iff.mp (congrArg Prod.snd htwo)).1

end Cuts

/-- The pieces do not matter if and only if no line ends after the first protocol error and no
panic comes after a frame that is answered. -/
theorem chunking_irrelevant_iff (frameSize : ℕ) {σ : Type} (exec : σ → Frame → Option (Frame × σ))
    (s : σ) (stream : Bytes) :
    (∀ cs cs' : List Bytes, (∀ c ∈ cs, c ≠ []) → (∀ c ∈ cs', c ≠ []) → cs.flatten = stream →
      cs'.flatten = stream →
        handleConnection frameSize exec cs s [] = handleConnection frameSize exec cs' s []) ↔
      CutAnywhere frameSize exec s stream := by
  unfold CutAnywhere
  by_cases hfits : stream.length ≤ isizeMax
  · rw [if_pos hfits]
    constructor
    · intro h
      exact ⟨fun p t hstream herr => no_crlf_of_cuts h hfits hstream herr,
        no_panic_of_cuts h hfits⟩
    · rintro ⟨herror, hpanic⟩ cs cs' _ _ hcs hcs'
      have hall (cs : List Bytes) (hcs : cs.flatten = stream) :
          handleConnection frameSize exec cs s [] =
            (servedBuffer frameSize exec s ([] ++ cs.flatten)).served := by
        refine handleConnection_eq checkedValue_nil ?_ ?_ ?_ <;> rw [List.nil_append, hcs]
        · exact hfits
        · exact herror
        · exact hpanic
      rw [hall cs hcs, hall cs' hcs', hcs, hcs']
  · rw [if_neg hfits]
    constructor
    · intro h
      exact silent_of_cuts h hfits
    · intro hsilent cs cs' _ _ hcs hcs'
      rw [handleConnection_of_silent hsilent (by exact hcs),
        handleConnection_of_silent hsilent (by exact hcs')]

end Served

/-- A server whose context and environment stay as they are, as one that answers frames. -/
def Handling.serve (S : Sizes) (h : Handling) (s : Server) (f : Frame) : Option (Frame × Server) :=
  { h with frame := f }.executeChecked S s

/-- A node that is alone, one second after its start, with a connection that reads the pieces. -/
def Server.readsPieces (cs : List String) : List Frame × Bytes :=
  handleConnection sizes64.frame (Handling.serve sizes64 (aloneAt [])) (cs.map Utf8.toBytes)
    ⟨∅, none⟩ []

/-- After a malformed length, `PING` is served if it arrives in a piece of its own. Before an array
that there is no room for, it is answered if it arrives in a piece of its own. -/
theorem chunking_matters :
    (Server.readsPieces ["$x\r\nPING\r\n"]).1 = [] ∧
      (Server.readsPieces ["$x\r\n", "PING\r\n"]).1 = [.array (some [.bulkStr "PING"])] ∧
      (Server.readsPieces ["PING\r\n*9223372036854775807\r\n"]).2 = [] ∧
      (Server.readsPieces ["PING\r\n", "*9223372036854775807\r\n"]).2 =
        Utf8.toBytes "+PONG\r\n" := by
  decide +kernel

end LoonyRedis
