import LoonyRedis.Keywords
import LoonyRedis.SetExpiry

/-!
# The case of the options of `SET` and `ZADD`

The options of `SET` and the flags of `ZADD` are compared with their upper case only. `SET` passes
over `nx`, so that it sets a key that exists, and `ZADD` takes `nx` for a score that is no number.
`caseBlind_iff` says when two vectors of arguments that differ in the case of keywords are served
alike all the same : exactly if the options that are read have the same effect.
-/

namespace LoonyRedis

open Ascii
open Server (aloneAt)

/-! ## SET -/

/-- The options that are read in `fs` and `fs'` have the same effect. -/
structure SameOptions (fs fs' : List Frame) : Prop where
  nx : .nx ∈ setTokens fs ↔ .nx ∈ setTokens fs'
  xx : .xx ∈ setTokens fs ↔ .xx ∈ setTokens fs'
  time : (.nx ∈ setTokens fs ∧ .xx ∈ setTokens fs) ∨
    (expiries fs).getLast?.elim none timeOf = (expiries fs').getLast?.elim none timeOf

/-- A store with one string. -/
def emptyString (key : String) : Store := (∅ : Store).insert key ⟨.string [], none⟩

section Set

variable {args args' : List Frame} {key : String} {val : Bytes} {ctx : CommandContext} {env : Env}

/-- The reply of a condition. -/
theorem conditionReply_injective {c d : Bool}
    (h : (if c then Frame.nullBulk else .ok) = if d then .nullBulk else .ok) : c = d := by
  cases c <;> cases d <;> first | rfl | cases h

/-- Two settings of one value that leave the same store have the same expiry. -/
theorem set_ttl_injective {now : ℕ} {v : Value} {ttl ttl' : Option ℕ} {s : Store}
    (h : s.set now key v ttl = s.set now key v ttl') : ttl = ttl' := by
  have hentry := congrArg (fun t : Store => t[key]?) h
  simp only [Store.set, FinMap.getElem?_insert_self, Option.some.injEq, Entry.mk.injEq,
    true_and] at hentry
  exact Option.map_injective (fun m n hmn => Nat.add_left_cancel hmn) hentry

variable {ttl : Option ℕ} {nx xx : Bool}

/-- The store with one empty string holds its key. -/
theorem exists_emptyString (now : ℕ) (key : String) : (emptyString key).exists_ now key = true := by
  simp [emptyString, Store.exists_, Entry.isExpired]

/-- The empty store holds no key. -/
theorem exists_empty (now : ℕ) (key : String) : (∅ : Store).exists_ now key = false := by
  simp [Store.exists_]

/-- With the key in the store `NX` decides. -/
theorem run_set_there : ((Request.set key val ttl nx xx).run ctx env (emptyString key)).Alike
    ⟨if nx then .nullBulk else .ok, if nx then emptyString key else
      (emptyString key).set env.now key (.string val) ttl, []⟩ := by
  simp only [Request.run, exists_emptyString, Bool.and_true, Bool.not_true, Bool.and_false]
  cases nx <;> exact ⟨rfl, rfl⟩

/-- Without it `XX` decides. -/
theorem run_set_missing : ((Request.set key val ttl nx xx).run ctx env ∅).Alike
    ⟨if xx then .nullBulk else .ok, if xx then ∅ else
      (∅ : Store).set env.now key (.string val) ttl, []⟩ := by
  simp only [Request.run, exists_empty, Bool.and_false, Bool.not_false, Bool.and_true]
  cases xx <;> exact ⟨rfl, rfl⟩

/-- The conditions show in the reply, and the expiry in the store unless both conditions are
set. -/
theorem run_set_alike {ttl' : Option ℕ} {nx' xx' : Bool}
    (h : ∀ s, ((Request.set key val ttl nx xx).run ctx env s).Alike
      ((Request.set key val ttl' nx' xx').run ctx env s)) :
    nx = nx' ∧ xx = xx' ∧ ((nx = true ∧ xx = true) ∨ ttl = ttl') := by
  obtain ⟨hreply, hstore⟩ := (run_set_there.symm.trans (h (emptyString key))).trans run_set_there
  obtain ⟨hreply', hstore'⟩ := (run_set_missing.symm.trans (h ∅)).trans run_set_missing
  obtain rfl := conditionReply_injective hreply
  obtain rfl := conditionReply_injective hreply'
  refine ⟨rfl, rfl, ?_⟩
  cases nx with
  | false => exact .inr (set_ttl_injective hstore)
  | true =>
    cases xx with
    | false => exact .inr (set_ttl_injective hstore')
    | true => exact .inl ⟨rfl, rfl⟩

/-- Two calls of `SET` that agree in key, value and options do the same. -/
theorem cmdSet_eq (hlen : args.length = args'.length) (hkey : bulkAsStr args 1 = bulkAsStr args' 1)
    (hval : bulkBytes args 2 = bulkBytes args' 2)
    (hnot : ¬ (3 ≤ args.length ∧ (bulkBytes args 1).isSome = true ∧
      (bulkBytes args 2).isSome = true)) : cmdSet args = cmdSet args' := by
  rw [cmdSet, cmdSet, ← hlen, strArg, strArg, ← hkey, bytesArg, bytesArg, ← hval]
  by_cases h3 : 3 ≤ args.length
  · cases h1 : bulkBytes args 1 with
    | none =>
      rw [bulkAsStr, h1]
      rfl
    | some b =>
      cases h2 : bulkBytes args 2 with
      | none =>
        rw [bulkAsStr, h1]
        rfl
      | some val => exact absurd ⟨h3, by rw [h1]; rfl, by rw [h2]; rfl⟩ hnot
  · rw [decide_eq_false h3]
    rfl

/-- Both conditions are never met. -/
theorem run_set_both (s : Store) :
    ((Request.set key val ttl true true).run ctx env s).Alike ⟨.nullBulk, s, []⟩ := by
  simp only [Request.run]
  cases s.exists_ env.now key <;> exact ⟨rfl, rfl⟩

/-- Two option lists are alike for `SET` if and only if they are read alike. -/
theorem dispatch_set_alike_iff {args args' : List Frame} (hlen : 3 ≤ args.length)
    (hlen' : 3 ≤ args'.length) (hkey : bulkAsStr args 1 = some key)
    (hkey' : bulkAsStr args' 1 = some key) (hval : bulkBytes args 2 = some val)
    (hval' : bulkBytes args' 2 = some val) :
    (∀ s, (dispatch ctx env "SET" args s).Alike (dispatch ctx env "SET" args' s)) ↔
      SameOptions (args.drop 3) (args'.drop 3) := by
  obtain ⟨nx, xx, hnx, hxx, hread⟩ := @read_setOptions _ _ _ ctx hlen hkey hval
  obtain ⟨nx', xx', hnx', hxx', hread'⟩ := @read_setOptions _ _ _ ctx hlen' hkey' hval'
  simp only [dispatch, hread, hread']
  constructor
  · intro h
    obtain ⟨rfl, rfl, htime⟩ := run_set_alike h
    refine ⟨hnx.symm.trans hnx', hxx.symm.trans hxx', htime.imp_left fun hboth => ?_⟩
    exact ⟨hnx.mp hboth.1, hxx.mp hboth.2⟩
  · intro h s
    obtain rfl : nx = nx' := Bool.eq_iff_iff.mpr (hnx.trans (h.nx.trans hnx'.symm))
    obtain rfl : xx = xx' := Bool.eq_iff_iff.mpr (hxx.trans (h.xx.trans hxx'.symm))
    rcases h.time with hboth | htime
    · obtain rfl := hnx.mpr hboth.1
      obtain rfl := hxx.mpr hboth.2
      exact (run_set_both s).trans (run_set_both s).symm
    · rw [htime]
      exact ⟨rfl, rfl⟩

end Set

/-! ## ZADD -/

/-- A flag that is read. -/
def isFlag (f : Frame) : Bool := zaddWords.any fun w => bulkAsStr [f] 0 = some w

/-- The arguments from the first one that is no flag. -/
def afterFlags (fs : List Frame) : List Frame := fs.dropWhile isFlag

/-- The first score that is not passed over is no number. -/
def firstBad : List ZaddStep → Bool
  | .skip :: steps => firstBad steps
  | .bad :: _ => true
  | .add _ _ :: _ => false
  | [] => false

/-- `ZADD` is refused for the same reason with `fs` and `fs'`, or for none. -/
structure SameFlags (fs fs' : List Frame) : Prop where
  short : (afterFlags fs).length < 2 ↔ (afterFlags fs').length < 2
  bad : firstBad (zaddSteps (afterFlags fs)) = firstBad (zaddSteps (afterFlags fs'))

section Zadd

variable {args args' fs fs' : List Frame} {f f' : Frame} {key : String} {ctx : CommandContext}
  {env : Env}

/-- A word of the list is a flag. -/
theorem isFlag_of_eq {w : String} (h : bulkAsStr [f] 0 = some w) (hw : w ∈ zaddWords) :
    isFlag f = true :=
  List.any_eq_true.mpr ⟨w, hw, decide_eq_true h⟩

/-- What follows the flags does not depend on the flags read before. -/
theorem zaddFlags_snd : ∀ (fs : List Frame) (flags : ZaddFlags),
    (zaddFlags fs flags).2 = afterFlags fs
  | [], _ => rfl
  | f :: rest, flags => by
    rw [afterFlags, List.dropWhile_cons]
    have hread {w : String} (h : bulkAsStr [f] 0 = some w) (hw : w ∈ zaddWords)
        (flags : ZaddFlags) : (zaddFlags rest flags).2 =
          if isFlag f = true then rest.dropWhile isFlag else f :: rest := by
      rw [if_pos (isFlag_of_eq h hw)]
      exact zaddFlags_snd rest flags
    unfold zaddFlags
    split
    · next h => exact hread h (by decide) _
    · next h => exact hread h (by decide) _
    · next h => exact hread h (by decide) _
    · next h => exact hread h (by decide) _
    · next h => exact hread h (by decide) _
    · next hnx hxx hgt hlt hch =>
      rw [if_neg]
      simp only [isFlag, zaddWords, List.any_cons, List.any_nil, Bool.or_eq_true, decide_eq_true_eq,
        Bool.false_eq_true, or_false, not_or]
      exact ⟨hnx, hxx, hgt, hlt, hch⟩

/-! ### The three ends -/

/-- A `ZADD` whose first score is no number answers the error and changes nothing. -/
theorem zaddLoop_of_firstBad (flags : ZaddFlags) (s : Store) :
    ∀ {steps : List ZaddStep}, firstBad steps = true →
      zaddLoop key flags steps s = (.error "ERR value is not a valid float", s)
  | [], h => by cases h
  | .skip :: steps, h => @zaddLoop_of_firstBad flags s steps h
  | .bad :: _, _ => rfl
  | .add _ _ :: _, h => by cases h

/-- On a string, what is not refused before is refused because of the type. -/
theorem zaddLoop_emptyString (flags : ZaddFlags) : ∀ {steps : List ZaddStep},
    firstBad steps = false → (zaddLoop key flags steps (emptyString key)).1 = .ok (0, 0) ∨
      (zaddLoop key flags steps (emptyString key)).1 = .error wrongType
  | [], _ => .inl rfl
  | .skip :: steps, h => @zaddLoop_emptyString flags steps h
  | .bad :: _, h => by cases h
  | .add score member :: steps, _ => by
    have hwrong : (emptyString key).zadd key score member flags.nx flags.xx flags.gt flags.lt =
        (.error wrongType, emptyString key) := Store.upsert_wrong FinMap.getElem?_insert_self rfl
    simp only [zaddLoop, hwrong, or_true]

/-- What `ZADD` with a key asks of the store. -/
theorem read_zadd (hlen : 4 ≤ args.length) (hkey : bulkAsStr args 1 = some key) :
    readCommand ctx "ZADD" args = if (afterFlags (args.drop 2)).length < 2 then
      .error (wrongNumArgs "zadd") else .ok (.zadd key (zaddFlags (args.drop 2) {}).1
        (zaddSteps (afterFlags (args.drop 2)))) := by
  change cmdZadd args = _
  rw [cmdZadd, strArg, hkey, decide_eq_true hlen, ← zaddFlags_snd _ {}]
  obtain ⟨flags, rest⟩ := zaddFlags (args.drop 2) {}
  change (require (decide (2 ≤ rest.length)) "zadd" >>= fun _ => _) = _
  by_cases hshort : rest.length < 2
  · rw [decide_eq_false (Nat.not_le.mpr hshort), if_pos hshort]
    rfl
  · rw [decide_eq_true (Nat.not_lt.mp hshort), if_neg hshort]
    rfl

/-- Too few arguments have no score that is read. -/
theorem firstBad_of_short {rest : List Frame} (h : rest.length < 2) :
    firstBad (zaddSteps rest) = false := by
  cases rest with
  | nil => rfl
  | cons f rest =>
    obtain rfl : rest = [] := List.eq_nil_of_length_eq_zero (by
      rw [List.length_cons] at h
      omega)
    rfl

variable {s : Store}

/-- A `ZADD` with no pair left after its flags is refused. -/
theorem dispatch_zadd_short (hlen : 4 ≤ args.length) (hkey : bulkAsStr args 1 = some key)
    (hshort : (afterFlags (args.drop 2)).length < 2) :
    (dispatch ctx env "ZADD" args s).reply = wrongNumArgs "zadd" ∧
      (dispatch ctx env "ZADD" args s).store = s := by
  rw [dispatch, read_zadd hlen hkey, if_pos hshort]
  exact ⟨rfl, rfl⟩

/-- A `ZADD` whose first score is no number is refused. -/
theorem dispatch_zadd_bad (hlen : 4 ≤ args.length) (hkey : bulkAsStr args 1 = some key)
    (hbad : firstBad (zaddSteps (afterFlags (args.drop 2))) = true) :
    (dispatch ctx env "ZADD" args s).reply = .error "ERR value is not a valid float" ∧
      (dispatch ctx env "ZADD" args s).store = s := by
  have hlong : ¬ (afterFlags (args.drop 2)).length < 2 := fun h => by
    rw [firstBad_of_short h] at hbad
    cases hbad
  rw [dispatch, read_zadd hlen hkey, if_neg hlong]
  simp only [Request.run, zaddLoop_of_firstBad _ s hbad]
  exact ⟨rfl, rfl⟩

/-- Otherwise the reply is an integer, or the type is wrong. -/
theorem dispatch_zadd_else (hlen : 4 ≤ args.length) (hkey : bulkAsStr args 1 = some key)
    (hlong : ¬ (afterFlags (args.drop 2)).length < 2)
    (hbad : firstBad (zaddSteps (afterFlags (args.drop 2))) = false) :
    (dispatch ctx env "ZADD" args (emptyString key)).reply = .integer 0 ∨
      (dispatch ctx env "ZADD" args (emptyString key)).reply = .error wrongType := by
  rw [dispatch, read_zadd hlen hkey, if_neg hlong]
  simp only [Request.run, Outcome.of]
  rcases @zaddLoop_emptyString key (zaddFlags (args.drop 2) {}).1 _ hbad with hloop | hloop
  · rw [hloop]
    refine .inl ?_
    dsimp only
    rw [ite_self]
    rfl
  · rw [hloop]
    exact .inr rfl

/-- With a string in the store the reply tells how `ZADD` ends. -/
theorem reply_zadd_iff (hlen : 4 ≤ args.length) (hkey : bulkAsStr args 1 = some key) :
    ((afterFlags (args.drop 2)).length < 2 ↔
      (dispatch ctx env "ZADD" args (emptyString key)).reply = wrongNumArgs "zadd") ∧
    (firstBad (zaddSteps (afterFlags (args.drop 2))) = true ↔
      (dispatch ctx env "ZADD" args (emptyString key)).reply =
        .error "ERR value is not a valid float") := by
  by_cases hshort : (afterFlags (args.drop 2)).length < 2
  · rw [(dispatch_zadd_short hlen hkey hshort).1, firstBad_of_short hshort]
    exact ⟨iff_of_true hshort rfl, iff_of_false Bool.false_ne_true (by decide)⟩
  · cases hbad : firstBad (zaddSteps (afterFlags (args.drop 2))) with
    | true =>
      rw [(dispatch_zadd_bad hlen hkey hbad).1]
      exact ⟨iff_of_false hshort (by decide), iff_of_true rfl rfl⟩
    | false =>
      rcases @dispatch_zadd_else _ _ ctx env hlen hkey hshort hbad with hreply | hreply
      · rw [hreply]
        exact ⟨iff_of_false hshort (by decide), iff_of_false Bool.false_ne_true (by decide)⟩
      · rw [hreply]
        exact ⟨iff_of_false hshort (by decide), iff_of_false Bool.false_ne_true (by decide)⟩

/-- Calls of `ZADD` that do the same on every store have read the same flags. -/
theorem sameFlags_of_alike (hlen : 4 ≤ args.length) (hlen' : 4 ≤ args'.length)
    (hkey : bulkAsStr args 1 = some key) (hkey' : bulkAsStr args' 1 = some key)
    (h : (dispatch ctx env "ZADD" args (emptyString key)).reply =
      (dispatch ctx env "ZADD" args' (emptyString key)).reply) :
    SameFlags (args.drop 2) (args'.drop 2) := by
  obtain ⟨hshort, hbad⟩ := @reply_zadd_iff _ _ ctx env hlen hkey
  obtain ⟨hshort', hbad'⟩ := @reply_zadd_iff _ _ ctx env hlen' hkey'
  rw [h] at hshort hbad
  exact ⟨hshort.trans hshort'.symm, Bool.eq_iff_iff.mpr (hbad.trans hbad'.symm)⟩

/-! ### Flags in another case -/

/-- `ZADD` is not refused before it looks at the store. -/
def Reads (fs : List Frame) : Prop :=
  2 ≤ (afterFlags fs).length ∧ firstBad (zaddSteps (afterFlags fs)) = false

/-- Two characters, of which the first one is a letter, are no number. -/
theorem parse_two {c : Char} (hc : c.isAlpha = true) (d : Char) :
    F64.parse (String.ofList [c, d]) = none := by
  have hdigit := isDigit_of_isAlpha hc
  have hpoint := ne_of_isAlpha hc (d := '.') (by decide)
  have hnumber : F64.parseNumber [c, d] = none := by
    simp [F64.parseNumber, F64.parseMantissa, hdigit, hpoint]
  have hword (t : String) (ht : t.toList.length ≠ 2) : [c, d].map Char.toLower ≠ t.toList := by
    intro h
    rw [← h] at ht
    exact ht rfl
  have hmag : F64.parseMag [c, d] = none := by
    simp only [F64.parseMag, hnumber, hword "inf" (by decide), hword "infinity" (by decide),
      hword "nan" (by decide)]
    simp
  unfold F64.parse
  rw [String.toList_ofList]
  split
  · next h => exact absurd (List.cons.inj h).1 (ne_of_isAlpha hc (by decide))
  · next h => exact absurd (List.cons.inj h).1 (ne_of_isAlpha hc (by decide))
  · rw [hmag, Option.map_none]

/-- A flag in any case is a flag that is read, or the arguments are refused. -/
theorem Reads.of_cons {b : Bytes} {w : String} {rest : List Frame} (h : Reads (f :: rest))
    (hb : f.payload = some b) (hw : w ∈ zaddWords) (hspells : Spells b w) :
    b = Utf8.toBytes w ∧ Reads rest := by
  have hstr : bulkAsStr [f] 0 = some (Utf8.lossy b) := by
    change f.payload.map Utf8.lossy = _
    rw [hb, Option.map_some]
  have hisWord : IsWord w := (show ∀ w ∈ zaddWords, IsWord w by decide) w hw
  have htwo : (Utf8.toBytes w).length = 2 :=
    (show ∀ w ∈ zaddWords, (Utf8.toBytes w).length = 2 by decide) w hw
  have hupper : ∀ w ∈ zaddWords, Text.toUppercase w = w := by decide
  cases hf : isFlag f with
  | true =>
    obtain ⟨w', hw', heq⟩ := List.any_eq_true.mp hf
    rw [decide_eq_true_eq, hstr, Option.some.injEq] at heq
    have hsame := hspells.toUppercase hisWord
    rw [heq, hupper w' hw'] at hsame
    refine ⟨(hspells.lossy_eq_iff hisWord).mp (heq.trans hsame), ?_⟩
    rw [Reads, afterFlags, List.dropWhile_cons_of_pos hf] at h
    exact h
  | false =>
    exfalso
    rw [Reads, afterFlags, List.dropWhile_cons_of_neg (by rw [hf]; exact Bool.false_ne_true)] at h
    obtain ⟨hlen, hbad⟩ := h
    cases rest with
    | nil => simp at hlen
    | cons g rest =>
      have hlen2 : (Utf8.lossy b).toList.length = 2 := by
        rw [toList_lossy (hspells.isAscii hisWord), List.length_map, ← htwo, ← hspells,
          List.length_map]
      obtain ⟨c, d, hcd⟩ := List.length_eq_two.mp hlen2
      have hparse : F64.parse (Utf8.lossy b) = none := by
        rw [← String.ofList_toList (s := Utf8.lossy b), hcd]
        exact parse_two (hspells.isAlpha hisWord (by rw [hcd]; simp)) d
      rw [zaddSteps, hstr] at hbad
      simp only [hparse, firstBad] at hbad
      cases hbad

/-- A frame with a payload is a bulk string. -/
theorem eq_bulk_of_payload {b : Bytes} (h : f.payload = some b) : f = .bulk (some b) := by
  cases f with
  | bulk p =>
    obtain rfl : p = some b := h
    rfl
  | _ => cases h

/-- If `ZADD` is not refused, all its flags are in upper case. -/
theorem eq_of_reads : ∀ {fs fs' : List Frame}, fs.length = fs'.length →
    (∀ i, fs[i]? = fs'[i]? ∨ ∃ w ∈ zaddWords, SpelledAt w fs i ∧ SpelledAt w fs' i ∧
      ∀ j < i, ∃ w' ∈ zaddWords, SpelledAt w' fs j) →
    Reads fs → Reads fs' → fs = fs'
  | [], _, hlen, _, _, _ => (List.eq_nil_of_length_eq_zero hlen.symm).symm
  | f :: rest, _, hlen, hall, hreads, hreads' => by
    obtain ⟨f', rest', rfl⟩ := List.exists_cons_of_length_eq_add_one hlen.symm
    have hlen' : rest.length = rest'.length := Nat.succ.inj hlen
    by_cases hflag : ∃ w ∈ zaddWords, SpelledAt w (f :: rest) 0
    · have htail (i : ℕ) : rest[i]? = rest'[i]? ∨ ∃ w ∈ zaddWords, SpelledAt w rest i ∧
          SpelledAt w rest' i ∧ ∀ j < i, ∃ w' ∈ zaddWords, SpelledAt w' rest j := by
        refine (hall (i + 1)).imp id fun hw => ?_
        obtain ⟨w, hw, hspelled, hspelled', hbefore⟩ := hw
        exact ⟨w, hw, hspelled, hspelled', fun j hj => hbefore (j + 1) (Nat.succ_lt_succ hj)⟩
      obtain ⟨w, hw, b, hb, hspells⟩ := hflag
      obtain ⟨hexact, hrest⟩ := hreads.of_cons hb hw hspells
      have hhead : f = f' ∧ Reads rest' := by
        rcases hall 0 with heq | ⟨v, hv, ⟨c, hc, hcv⟩, ⟨c', hc', hcv'⟩, -⟩
        · obtain rfl : f = f' := Option.some.inj heq
          exact ⟨rfl, (hreads'.of_cons hb hw hspells).2⟩
        · obtain ⟨rfl, -⟩ := hreads.of_cons hc hv hcv
          obtain ⟨rfl, hrest'⟩ := hreads'.of_cons hc' hv hcv'
          exact ⟨(eq_bulk_of_payload hc).trans (eq_bulk_of_payload hc').symm, hrest'⟩
      rw [hhead.1, eq_of_reads hlen' htail hrest hhead.2]
    · -- No flag comes after an argument that is none.
      refine List.ext_getElem? fun i => ?_
      rcases hall i with heq | ⟨w, hw, hspelled, -, hbefore⟩
      · exact heq
      · rcases Nat.eq_zero_or_pos i with rfl | hi
        · exact absurd ⟨w, hw, hspelled⟩ hflag
        · exact absurd (hbefore 0 hi) hflag

end Zadd

/-! ## The exact condition -/

/-- `SET` reads options with the same effect, and `ZADD` is refused for the same reason or for
none. Other commands, and those that lack an argument, meet the condition. -/
structure SameReading (args args' : List Frame) : Prop where
  set : nameOf args = "SET" → 3 ≤ args.length → (bulkBytes args 1).isSome = true →
    (bulkBytes args 2).isSome = true → SameOptions (args.drop 3) (args'.drop 3)
  zadd : nameOf args = "ZADD" → 4 ≤ args.length → (bulkBytes args 1).isSome = true →
    SameFlags (args.drop 2) (args'.drop 2)

section Exact

variable {args args' : List Frame}

/-- Two calls of `ZADD` that agree in key and arguments do the same. -/
theorem cmdZadd_eq (hlen : args.length = args'.length) (hkey : bulkAsStr args 1 = bulkAsStr args' 1)
    (h : ¬ (4 ≤ args.length ∧ (bulkBytes args 1).isSome = true) ∨ args.drop 2 = args'.drop 2) :
    cmdZadd args = cmdZadd args' := by
  rw [cmdZadd, cmdZadd, ← hlen, strArg, strArg, ← hkey]
  rcases h with h | h
  · by_cases h4 : 4 ≤ args.length
    · cases h1 : bulkBytes args 1 with
      | none =>
        rw [bulkAsStr, h1]
        rfl
      | some b => exact absurd ⟨h4, by rw [h1]; rfl⟩ h
    · rw [decide_eq_false h4]
      rfl
  · rw [h]

/-- The flags of `ZADD` come first. -/
theorem Recased.zadd_flags (h : Recased args args') (hname : nameOf args = "ZADD") (i : ℕ) :
    (args.drop 2)[i]? = (args'.drop 2)[i]? ∨ ∃ w ∈ zaddWords, SpelledAt w (args.drop 2) i ∧
      SpelledAt w (args'.drop 2) i ∧ ∀ j < i, ∃ w' ∈ zaddWords, SpelledAt w' (args.drop 2) j := by
  have hspelled (l : List Frame) (w : String) (j : ℕ) :
      SpelledAt w (l.drop 2) j ↔ SpelledAt w l (2 + j) := by
    rw [SpelledAt, SpelledAt, bulkBytes, bulkBytes, List.getElem?_drop]
  simp only [List.getElem?_drop, hspelled]
  refine (h.rest (2 + i) (by omega)).imp id fun hw => ?_
  obtain ⟨w, ⟨hmem, hat, hbefore⟩, hat'⟩ := hw
  have hwords : keywords (nameOf args) (2 + i) = zaddWords := by simp [keywords, hname]
  rw [hwords] at hmem
  exact ⟨w, hmem, hat, hat', fun j hj => hbefore hname (2 + j) (by omega) (by omega)⟩

/-- Commands that are read alike are dispatched alike. -/
theorem dispatch_congr {ctx : CommandContext} {env : Env} {name : String}
    (h : readCommand ctx name args = readCommand ctx name args') (s : Store) :
    (dispatch ctx env name args s).Alike (dispatch ctx env name args' s) := by
  rw [dispatch, dispatch, h]
  exact ⟨rfl, rfl⟩

/-- A `ZADD` with words in another case that reads alike does the same. -/
theorem Recased.dispatch_zadd (h : Recased args args') (hname : nameOf args = "ZADD")
    (hsame : SameReading args args') (ctx : CommandContext) (env : Env) (s : Store) :
    (dispatch ctx env "ZADD" args s).Alike (dispatch ctx env "ZADD" args' s) := by
  by_cases hok : 4 ≤ args.length ∧ (bulkBytes args 1).isSome = true
  · obtain ⟨hlen, hkey⟩ := hok
    have hsame := hsame.zadd hname hlen hkey
    obtain ⟨b, hb⟩ := Option.isSome_iff_exists.mp hkey
    have hkey : bulkAsStr args 1 = some (Utf8.lossy b) := by rw [bulkAsStr, hb, Option.map_some]
    have hkey' := h.bulkAsStr_one ▸ hkey
    have hlen' := h.length ▸ hlen
    by_cases hshort : (afterFlags (args.drop 2)).length < 2
    · obtain ⟨hreply, hstore⟩ := @dispatch_zadd_short _ _ ctx env s hlen hkey hshort
      obtain ⟨hreply', hstore'⟩ := @dispatch_zadd_short _ _ ctx env s hlen' hkey'
        (hsame.short.mp hshort)
      exact ⟨hreply.trans hreply'.symm, hstore.trans hstore'.symm⟩
    · cases hbad : firstBad (zaddSteps (afterFlags (args.drop 2))) with
      | true =>
        obtain ⟨hreply, hstore⟩ := @dispatch_zadd_bad _ _ ctx env s hlen hkey hbad
        obtain ⟨hreply', hstore'⟩ := @dispatch_zadd_bad _ _ ctx env s hlen' hkey'
          (hsame.bad.symm.trans hbad)
        exact ⟨hreply.trans hreply'.symm, hstore.trans hstore'.symm⟩
      | false =>
        have heq := eq_of_reads (by rw [List.length_drop, List.length_drop, h.length])
          (h.zadd_flags hname) ⟨Nat.not_lt.mp hshort, hbad⟩
          ⟨Nat.not_lt.mp (fun hlt => hshort (hsame.short.mpr hlt)), hsame.bad.symm.trans hbad⟩
        have hread : readCommand ctx "ZADD" args = readCommand ctx "ZADD" args' :=
          cmdZadd_eq h.length h.bulkAsStr_one (.inr heq)
        exact dispatch_congr hread s
  · have hread : readCommand ctx "ZADD" args = readCommand ctx "ZADD" args' :=
      cmdZadd_eq h.length h.bulkAsStr_one (.inl hok)
    exact dispatch_congr hread s

/-- The value of a `SET` is not a word that changes its case. -/
theorem Recased.bulkBytes_two (h : Recased args args') (hname : nameOf args = "SET") :
    bulkBytes args 2 = bulkBytes args' 2 :=
  h.bulkBytes_eq (by decide) (by simp [keywords, hname])

/-- A `SET` with words in another case that reads alike does the same. -/
theorem Recased.dispatch_set (h : Recased args args') (hname : nameOf args = "SET")
    (hsame : SameReading args args') (ctx : CommandContext) (env : Env) (s : Store) :
    (dispatch ctx env "SET" args s).Alike (dispatch ctx env "SET" args' s) := by
  have hval := h.bulkBytes_two hname
  by_cases hok : 3 ≤ args.length ∧ (bulkBytes args 1).isSome = true ∧
      (bulkBytes args 2).isSome = true
  · obtain ⟨hlen, hkey, hvalue⟩ := hok
    have hsame := hsame.set hname hlen hkey hvalue
    obtain ⟨b, hb⟩ := Option.isSome_iff_exists.mp hkey
    obtain ⟨val, hvalue⟩ := Option.isSome_iff_exists.mp hvalue
    have hkey : bulkAsStr args 1 = some (Utf8.lossy b) := by rw [bulkAsStr, hb, Option.map_some]
    exact (dispatch_set_alike_iff hlen (h.length ▸ hlen) hkey (h.bulkAsStr_one ▸ hkey) hvalue
      (hval ▸ hvalue)).mpr hsame s
  · have hread : readCommand ctx "SET" args = readCommand ctx "SET" args' :=
      cmdSet_eq h.length h.bulkAsStr_one hval hok
    exact dispatch_congr hread s

/-- A standalone server dispatches `SET` and `ZADD` to their handlers. -/
theorem route_standalone (hname : nameOf args = "SET" ∨ nameOf args = "ZADD") :
    route .standalone (.array (some args)) = .dispatch (nameOf args) args := by
  cases args with
  | nil => simp [nameOf, bulkBytes] at hname
  | cons f rest =>
    cases hcmd : bulkBytes (f :: rest) 0 with
    | none => simp [nameOf, hcmd] at hname
    | some cmd =>
      have hnameOf : nameOf (f :: rest) = commandName cmd := by rw [nameOf, hcmd]; rfl
      have hroute : route .standalone (.array (some (f :: rest))) =
          routeCommand .standalone (commandName cmd) (f :: rest) := by
        simp only [route, hcmd]
      rw [hroute, routeCommand_single rfl rfl, ← hnameOf]
      rcases hname with hname | hname
      · rw [hname]
        rfl
      · rw [hname]
        rfl

/-- On a standalone server alone, a call is its dispatch and nothing more. -/
theorem execute_alone (hname : nameOf args = "SET" ∨ nameOf args = "ZADD") (s : Store) :
    ((aloneAt []).withArgs args).execute ⟨s, none⟩ =
      ((dispatch .standalone (aloneAt []).env (nameOf args) args s).reply,
        ⟨(dispatch .standalone (aloneAt []).env (nameOf args) args s).store, none⟩) := by
  have hroute : route (((aloneAt []).withArgs args).context ⟨s, none⟩)
      ((aloneAt []).withArgs args).frame = .dispatch (nameOf args) args := route_standalone hname
  unfold Handling.execute
  rw [hroute]
  rfl

/-- Commands that a single node does not tell apart. -/
theorem CaseBlind.dispatch (hblind : CaseBlind args args') (h : Recased args args')
    (hname : nameOf args = "SET" ∨ nameOf args = "ZADD") (s : Store) :
    (dispatch .standalone (aloneAt []).env (nameOf args) args s).Alike
      (dispatch .standalone (aloneAt []).env (nameOf args) args' s) := by
  have hexecute := hblind.execute (aloneAt []) ⟨s, none⟩ fun _ => rfl
  rw [execute_alone hname, execute_alone (h.nameOf_eq ▸ hname), ← h.nameOf_eq,
    Prod.mk.injEq, Server.mk.injEq] at hexecute
  exact ⟨hexecute.1, hexecute.2.1⟩

/-- Exactly the commands that read their options in upper case only are not blind to the case. -/
theorem caseBlind_iff (h : Recased args args') : CaseBlind args args' ↔ SameReading args args' := by
  constructor
  · intro hblind
    refine ⟨fun hname hlen hkey hvalue => ?_, fun hname hlen hkey => ?_⟩
    · obtain ⟨b, hb⟩ := Option.isSome_iff_exists.mp hkey
      obtain ⟨val, hvalue⟩ := Option.isSome_iff_exists.mp hvalue
      have hkey : bulkAsStr args 1 = some (Utf8.lossy b) := by rw [bulkAsStr, hb, Option.map_some]
      have halike := hblind.dispatch h (.inl hname)
      rw [hname] at halike
      exact (dispatch_set_alike_iff hlen (h.length ▸ hlen) hkey (h.bulkAsStr_one ▸ hkey) hvalue
        (h.bulkBytes_two hname ▸ hvalue)).mp halike
    · obtain ⟨b, hb⟩ := Option.isSome_iff_exists.mp hkey
      have hkey : bulkAsStr args 1 = some (Utf8.lossy b) := by rw [bulkAsStr, hb, Option.map_some]
      have halike := hblind.dispatch h (.inr hname)
      rw [hname] at halike
      exact sameFlags_of_alike hlen (h.length ▸ hlen) hkey (h.bulkAsStr_one ▸ hkey)
        (halike (emptyString _)).1
  · intro hsame
    refine h.caseBlind fun ctx env s => ?_
    by_cases hset : nameOf args = "SET"
    · rw [hset]
      exact h.dispatch_set hset hsame ctx env s
    · by_cases hzadd : nameOf args = "ZADD"
      · rw [hzadd]
        exact h.dispatch_zadd hzadd hsame ctx env s
      · exact dispatch_congr (h.readCommand_eq hset hzadd ctx) s

/-- `LINSERT` reads `before` in any case. -/
theorem caseBlind_linsert : CaseBlind (["LINSERT", "l", "BEFORE", "p", "v"].map .bulkStr)
    (["linsert", "l", "before", "p", "v"].map .bulkStr) := by
  have hname : nameOf (["LINSERT", "l", "BEFORE", "p", "v"].map .bulkStr) = "LINSERT" := by decide
  have hrecased : Recased (["LINSERT", "l", "BEFORE", "p", "v"].map .bulkStr)
      (["linsert", "l", "before", "p", "v"].map .bulkStr) := by
    refine ⟨by simp, .inr ⟨_, _, rfl, rfl, by decide⟩, fun i hi => ?_⟩
    rcases i with - | - | - | i
    · omega
    · exact .inl (by simp)
    · refine .inr ⟨"BEFORE", ⟨by rw [hname]; decide, ⟨_, rfl, by decide⟩, fun h => ?_⟩, _, rfl,
        by decide⟩
      rw [hname] at h
      exact absurd h (by decide)
    · exact .inl (by simp)
  refine (caseBlind_iff hrecased).mpr ⟨fun h => ?_, fun h => ?_⟩
  · rw [hname] at h
    exact absurd h (by decide)
  · rw [hname] at h
    exact absurd h (by decide)

/-- `SET k v nx` sets a key that exists, which `SET k v NX` does not. -/
theorem lowercase_nx_overwrites :
    Recased (["SET", "k", "v", "NX"].map .bulkStr) (["SET", "k", "v", "nx"].map .bulkStr) ∧
    (dispatch .standalone (.plain 0) "SET" (["SET", "k", "v", "NX"].map .bulkStr)
      (emptyString "k")).reply = .nullBulk ∧
    (dispatch .standalone (.plain 0) "SET" (["SET", "k", "v", "nx"].map .bulkStr)
      (emptyString "k")).reply = .ok ∧
    ¬ CaseBlind (["SET", "k", "v", "NX"].map .bulkStr) (["SET", "k", "v", "nx"].map .bulkStr) := by
  have hname : nameOf (["SET", "k", "v", "NX"].map .bulkStr) = "SET" := by decide
  have hrecased : Recased (["SET", "k", "v", "NX"].map .bulkStr)
      (["SET", "k", "v", "nx"].map .bulkStr) := by
    refine ⟨by simp, .inl rfl, fun i hi => ?_⟩
    rcases i with - | - | - | - | i
    · omega
    · exact .inl (by simp)
    · exact .inl (by simp)
    · refine .inr ⟨"NX", ⟨by rw [hname]; decide, ⟨_, rfl, by decide⟩, fun h => ?_⟩, _, rfl,
        by decide⟩
      rw [hname] at h
      exact absurd h (by decide)
    · exact .inl (by simp)
  refine ⟨hrecased, by decide, by decide, fun hblind => ?_⟩
  have hreply := (hblind.dispatch hrecased (.inl hname) (emptyString "k")).1
  rw [hname] at hreply
  revert hreply
  decide

end Exact

end LoonyRedis
