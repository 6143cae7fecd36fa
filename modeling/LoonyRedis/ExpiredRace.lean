import LoonyRedis.ConcurrentCommands

/-!
# Reading an expired key while it is set

`Store::get` looks at the entry of a key, lets go of it, and if it had expired removes the key
by a second access, whatever is there then. A `SET` of another client between the two is lost :
it was acknowledged, and the key is gone.

Any number of `GET`s run here with one `SET`, their accesses in any order. The value survives
if and only if no `GET` makes one access before the write and another after it
(`set_survives_iff`).
-/

namespace LoonyRedis

open Std Store Serial

/-! ## The programs -/

/-- `GET`, which looks at the entry at the time `now`. -/
def getSteps (now : ℕ) (key : String) : Steps := Steps.get now key fun v => .done (getReply v)

/-- What is left of a `GET` that has found an expired entry. -/
def removeSteps (key : String) : Steps :=
  .access key (fun _ => none) fun _ => .done (getReply none)

/-- What is left of a `SET` after it has looked for the key. -/
def writeSteps (key : String) (val : Bytes) : Steps :=
  .access key (fun _ => some ⟨.string val, none⟩) fun _ => .done .ok

/-- `SET` without options. -/
def setSteps (now : ℕ) (key : String) (val : Bytes) : Steps :=
  Steps.exists_ now key fun _ => writeSteps key val

/-- Alone, the programs are the commands. -/
theorem run_getSteps (ctx : CommandContext) (env : Env) (key : String) (s : Store) :
    (getSteps env.now key).run s.look =
      (((Request.get key).run ctx env s).reply, ((Request.get key).run ctx env s).store.look) :=
  Steps.run_get _

theorem steps_set (env : Env) (key : String) (val : Bytes) :
    (Request.set key val none false false).steps env = some (setSteps env.now key val) := rfl

/-! ## Where a `GET` can be -/

section

variable {key : String} {val : Bytes} {e : Entry}

/-- A `GET` has ended, is about to remove the key, or has not started; it starts after the
entry `e` has expired. -/
def InFlight (key : String) (e : Entry) (p : Steps) : Prop :=
  (∃ r, p = .done r) ∨ p = removeSteps key ∨
    ∃ now, e.isExpired now = true ∧ p = getSteps now key

/-- What a `GET` goes on with. -/
def lookNext (now : ℕ) (key : String) (o : Option Entry) : Steps :=
  if o.any (Entry.isExpired now) then removeSteps key else .done (getReply (o.map Entry.value))

theorem getSteps_eq (now : ℕ) (key : String) :
    getSteps now key = .access key id (lookNext now key) := by
  rw [getSteps, Steps.get]
  congr 1
  ext o : 1
  cases o with
  | none => rfl
  | some e =>
    unfold lookNext
    rfl

theorem getSteps_ne_removeSteps {now : ℕ} : getSteps now key ≠ removeSteps key := by
  rw [getSteps_eq, removeSteps]
  intro h
  have hupd := (Prog.access.inj h).2.1
  exact absurd (congrFun hupd (some ⟨.string [], none⟩)) (by decide)

/-- After an access a `GET` has ended, or is about to remove the expired entry. -/
theorem InFlight.access {p : Steps} (h : InFlight key e p) {k : String}
    {upd : Option Entry → Option Entry} {next : Option Entry → Steps}
    (hp : p = .access k upd next) (o : Option Entry) : key = k ∧
      ((p = removeSteps key ∧ upd o = none ∧ next o = .done (getReply none)) ∨
        ∃ now, e.isExpired now = true ∧ p ≠ removeSteps key ∧ upd o = o ∧
          next o = lookNext now key o) := by
  rcases h with ⟨r, rfl⟩ | rfl | ⟨now, hexp, rfl⟩
  · cases hp
  · obtain ⟨rfl, rfl, rfl⟩ := Prog.access.inj hp
    exact ⟨rfl, .inl ⟨rfl, rfl, rfl⟩⟩
  · have hne : getSteps now key ≠ removeSteps key := getSteps_ne_removeSteps
    rw [getSteps_eq] at hp
    obtain ⟨rfl, rfl, rfl⟩ := Prog.access.inj hp
    exact ⟨rfl, .inr ⟨now, hexp, hne, rfl, rfl⟩⟩

theorem InFlight.of_done (r : Frame) : InFlight key e (.done r) := .inl ⟨r, rfl⟩

/-- Programs of which one has made an access that leaves a program in flight. -/
theorem inFlight_set {ps : List Steps} (h : ∀ p ∈ ps, InFlight key e p) {i : ℕ} {q : Steps}
    (hq : InFlight key e q) : ∀ p ∈ ps.set i q, InFlight key e p := by
  intro p hp
  rcases List.mem_or_eq_of_mem_set hp with hmem | rfl
  · exact h p hmem
  · exact hq

/-! ## After the write -/

/-- The value survives what comes after the write if no `GET` is about to remove the key. -/
theorem survives_after : ∀ {order : List ℕ} {ps ps' : List Steps} {m m' : String → Option Entry},
    runAll order ps m = some (ps', m') → Finished ps' →
    (∀ p ∈ ps, InFlight key e p) → (m key = some ⟨.string val, none⟩ ∨ m key = none) →
    (m' key = some ⟨.string val, none⟩ ↔
      m key = some ⟨.string val, none⟩ ∧ ∀ j : ℕ, ps[j]? ≠ some (removeSteps key))
  | [], ps, ps', m, m', h, hfin, _, _ => by
    obtain ⟨rfl, rfl⟩ := Prod.mk.inj (Option.some.inj h)
    refine ⟨fun hm => ⟨hm, fun j hj => ?_⟩, fun hm => hm.1⟩
    cases hfin _ (List.mem_of_getElem? hj)
  | i :: order, ps, ps', m, m', h, hfin, hflight, hm => by
    obtain ⟨k, upd, next, hp, hrest⟩ := runAll_cons_eq_some h
    obtain ⟨rfl, ⟨heq, hupd, hnext⟩ | ⟨now, hexp, hne, hupd, hnext⟩⟩ :=
      (hflight _ (List.mem_of_getElem? hp)).access rfl (m key)
    · -- The removal : the value is gone, and nobody writes another.
      rw [hupd, hnext] at hrest
      have hflight' := inFlight_set hflight (i := i) (InFlight.of_done (getReply none))
      have hgone := survives_after hrest hfin hflight' (.inr (Function.update_self ..))
      rw [hgone, Function.update_self]
      refine iff_of_false (fun hbad => by cases hbad.1) fun hbad => hbad.2 i ?_
      rw [hp, heq]
    · -- A look : it finds a value that does not expire, or nothing.
      have hdone : lookNext now key (m key) = .done (getReply ((m key).map Entry.value)) := by
        rcases hm with hv | hv <;> rw [hv] <;> rfl
      rw [hupd, Function.update_eq_self, hnext, hdone] at hrest
      have hflight' := inFlight_set hflight (i := i)
        (InFlight.of_done (getReply ((m key).map Entry.value)))
      rw [survives_after hrest hfin hflight' hm]
      refine and_congr_right fun _ => forall_congr' fun j => ?_
      rw [List.getElem?_set]
      by_cases hij : i = j
      · subst hij
        have hlt : i < ps.length := (List.getElem?_eq_some_iff.mp hp).1
        rw [if_pos rfl, if_pos hlt, hp]
        refine iff_of_true (fun hbad => ?_) (fun hbad => hne (Option.some.inj hbad))
        cases Option.some.inj hbad
      · rw [if_neg hij]

/-! ## Up to the write -/

/-- The `SET` is program 0. The value survives if no `GET` that has looked or will look
before the write makes an access after it. -/
theorem survives_before (setNow : ℕ) {after : List ℕ} {ps' : List Steps}
    {m' : String → Option Entry} (hfin : Finished ps') :
    ∀ {before : List ℕ} {ps : List Steps} {m : String → Option Entry},
    runAll (before ++ 0 :: after) ps m = some (ps', m') →
    before.count 0 ≤ 1 →
    ps[0]? = some (if before.count 0 = 0 then writeSteps key val else setSteps setNow key val) →
    (∀ p ∈ ps.tail, InFlight key e p) → (m key = some e ∨ m key = none) →
    (m' key = some ⟨.string val, none⟩ ↔
      ∀ j : ℕ, (ps[j + 1]? = some (removeSteps key) ∨ j + 1 ∈ before) → j + 1 ∉ after)
  | [], ps, m, h, _, hset, hflight, _ => by
    rw [List.count_nil, if_pos rfl] at hset
    have hrest : runAll after (ps.set 0 (.done .ok))
        (Function.update m key (some ⟨.string val, none⟩)) = some (ps', m') := by
      obtain ⟨k, upd, next, hp, hrest⟩ := runAll_cons_eq_some h
      rw [hset] at hp
      obtain ⟨rfl, rfl, rfl⟩ := Prog.access.inj (Option.some.inj hp)
      exact hrest
    have hflight' : ∀ p ∈ ps.set 0 (.done .ok), InFlight key e p := by
      cases ps with
      | nil => simp
      | cons p₀ gets => exact List.forall_mem_cons.mpr ⟨InFlight.of_done _, hflight⟩
    rw [survives_after hrest hfin hflight' (.inl (Function.update_self ..)), Function.update_self]
    constructor
    · rintro ⟨-, hnone⟩ j (hj | hj)
      · refine absurd ?_ (hnone (j + 1))
        rw [List.getElem?_set_ne (Nat.succ_ne_zero j).symm, hj]
      · cases hj
    · intro hall
      refine ⟨rfl, fun j hj => ?_⟩
      -- A removal that is still to come is an access after the write.
      have hafter := mem_of_finished hrest hfin hj rfl
      cases j with
      | zero =>
        have hlt : 0 < ps.length := (List.getElem?_eq_some_iff.mp hset).1
        rw [List.getElem?_set_self hlt] at hj
        cases Option.some.inj hj
      | succ j =>
        rw [List.getElem?_set_ne (Nat.succ_ne_zero j).symm] at hj
        exact hall j (.inl hj) hafter
  | 0 :: before, ps, m, h, hcount, hset, hflight, hm => by
    rw [List.count_cons_self] at hcount hset
    have hzero : before.count 0 = 0 := by omega
    rw [if_neg (Nat.succ_ne_zero _)] at hset
    have hlt : 0 < ps.length := (List.getElem?_eq_some_iff.mp hset).1
    have hrest : runAll (before ++ 0 :: after) (ps.set 0 (writeSteps key val)) m =
        some (ps', m') := by
      obtain ⟨k, upd, next, hp, hrest⟩ := runAll_cons_eq_some h
      rw [hset] at hp
      obtain ⟨rfl, rfl, rfl⟩ := Prog.access.inj (Option.some.inj hp)
      rw [id, Function.update_eq_self] at hrest
      cases hkey : m key <;> rw [hkey] at hrest <;> exact hrest
    have hothers : ∀ j : ℕ, (ps.set 0 (writeSteps key val))[j + 1]? = ps[j + 1]? := fun j =>
      List.getElem?_set_ne (Nat.succ_ne_zero j).symm
    have htail : (ps.set 0 (writeSteps key val)).tail = ps.tail := by cases ps <;> rfl
    rw [survives_before setNow hfin hrest (by omega)
      (by rw [if_pos hzero, List.getElem?_set_self hlt]) (htail ▸ hflight) hm]
    simp only [hothers, List.mem_cons, Nat.succ_ne_zero, false_or]
  | (i + 1) :: before, ps, m, h, hcount, hset, hflight, hm => by
    rw [List.count_cons_of_ne (Nat.succ_ne_zero i)] at hcount hset
    obtain ⟨k, upd, next, hp, hrest⟩ := runAll_cons_eq_some h
    have hlt : i + 1 < ps.length := (List.getElem?_eq_some_iff.mp hp).1
    have hget : ps[i + 1]? = some (.access k upd next) := hp
    have htail : ps.tail[i]? = some (.access k upd next) := by rw [List.getElem?_tail, hp]
    -- What is left of the `GET` is a removal, or it will make no other access.
    have hgo : ∀ {q : Steps} {m₁ : String → Option Entry}, InFlight key e q →
        (q = removeSteps key ∨ ∃ r, q = .done r) → (m₁ key = some e ∨ m₁ key = none) →
        runAll (before ++ 0 :: after) (ps.set (i + 1) q) m₁ = some (ps', m') →
        (m' key = some ⟨.string val, none⟩ ↔ ∀ j : ℕ, (ps[j + 1]? = some (removeSteps key) ∨
          j + 1 ∈ (i + 1) :: before) → j + 1 ∉ after) := by
      intro q m₁ hq hcases hm₁ hrun
      have hset₁ : (ps.set (i + 1) q)[0]? = ps[0]? := List.getElem?_set_ne (Nat.succ_ne_zero i)
      have hflight₁ : ∀ p ∈ (ps.set (i + 1) q).tail, InFlight key e p := by
        rw [← List.set_tail]
        exact inFlight_set hflight hq
      rw [survives_before setNow hfin hrun hcount (hset₁ ▸ hset) hflight₁ hm₁]
      refine forall_congr' fun j => ?_
      by_cases hij : i = j
      · subst hij
        rw [List.getElem?_set_self hlt]
        have hthis : i + 1 ∈ (i + 1) :: before := List.mem_cons_self
        rcases hcases with rfl | ⟨r, rfl⟩
        · simp
        · have hno := not_mem_of_done hrun (List.getElem?_set_self hlt)
          have hafter : i + 1 ∉ after := fun hmem =>
            hno (List.mem_append_right _ (List.mem_cons_of_mem _ hmem))
          simp [hafter]
      · have hne : i + 1 ≠ j + 1 := fun heq => hij (Nat.succ.inj heq)
        rw [List.getElem?_set_ne hne, List.mem_cons]
        simp [Ne.symm hij]
    obtain ⟨rfl, ⟨-, hupd, hnext⟩ | ⟨now, hexp, -, hupd, hnext⟩⟩ :=
      (hflight _ (List.mem_of_getElem? htail)).access rfl (m key)
    · rw [hupd, hnext] at hrest
      exact hgo (InFlight.of_done _) (.inr ⟨_, rfl⟩) (.inr (Function.update_self ..)) hrest
    · rw [hupd, Function.update_eq_self, hnext] at hrest
      rcases hm with hv | hv
      · have hnoticed : lookNext now key (m key) = removeSteps key := by
          rw [hv, lookNext, Option.any_some, if_pos hexp]
        rw [hnoticed] at hrest
        exact hgo (.inr (.inl rfl)) (.inl rfl) (.inl hv) hrest
      · have hdone : lookNext now key (m key) = .done (getReply none) := by
          rw [hv]
          rfl
        rw [hdone] at hrest
        exact hgo (InFlight.of_done _) (.inr ⟨_, rfl⟩) (.inr hv) hrest

/-- The order of a run to the end has the look and the write of the `SET`. -/
theorem exists_write {setNow : ℕ} {ps' : List Steps} {m' : String → Option Entry}
    (hfin : Finished ps') :
    ∀ {order : List ℕ} {ps : List Steps} {m : String → Option Entry},
    runAll order ps m = some (ps', m') → ps[0]? = some (setSteps setNow key val) →
    ∃ before after, order = before ++ 0 :: after ∧ before.count 0 = 1
  | [], ps, m, h, hset => absurd (mem_of_finished h hfin hset rfl) List.not_mem_nil
  | 0 :: order, ps, m, h, hset => by
    have hlt : 0 < ps.length := (List.getElem?_eq_some_iff.mp hset).1
    obtain ⟨k, upd, next, hp, hrest⟩ := runAll_cons_eq_some h
    have hwrite : next (m k) = writeSteps key val := by
      rw [hset] at hp
      obtain ⟨rfl, rfl, rfl⟩ := Prog.access.inj (Option.some.inj hp)
      cases m key <;> rfl
    rw [hwrite] at hrest
    obtain ⟨before, after, rfl, hno⟩ := List.eq_append_cons_of_mem
      (mem_of_finished hrest hfin (List.getElem?_set_self hlt) rfl)
    exact ⟨0 :: before, after, rfl, by rw [List.count_cons_self, List.count_eq_zero_of_not_mem hno]⟩
  | (i + 1) :: order, ps, m, h, hset => by
    obtain ⟨k, upd, next, hp, hrest⟩ := runAll_cons_eq_some h
    obtain ⟨before, after, rfl, hcount⟩ := exists_write hfin hrest
      (by rw [List.getElem?_set_ne (Nat.succ_ne_zero i), hset])
    refine ⟨(i + 1) :: before, after, rfl, ?_⟩
    rw [List.count_cons_of_ne (Nat.succ_ne_zero i), hcount]

/-- Program `i` makes an access before the write of the `SET`, the second access of program
0, and another after it. -/
def Straddles (order : List ℕ) (i : ℕ) : Prop :=
  ∃ before after, order = before ++ 0 :: after ∧ before.count 0 = 1 ∧ i ∈ before ∧ i ∈ after

/-- Any number of `GET`s of a key whose entry has expired run with one `SET`, each to its
end, in any order. The key has the value of the `SET` at the end if and only if no `GET`
looks before the write and removes after it. -/
theorem set_survives_iff {setNow : ℕ} {nows order : List ℕ} {ps : List Steps}
    {m m' : String → Option Entry} (hkey : m key = some e)
    (hexp : ∀ now ∈ nows, e.isExpired now = true)
    (hrun : runAll order (setSteps setNow key val :: nows.map fun now => getSteps now key) m =
      some (ps, m')) (hfin : Finished ps) :
    m' key = some ⟨.string val, none⟩ ↔ ∀ i ≠ 0, ¬ Straddles order i := by
  have hflight : ∀ p ∈ nows.map fun now => getSteps now key, InFlight key e p := by
    intro p hp
    obtain ⟨now, hnow, rfl⟩ := List.mem_map.mp hp
    exact .inr (.inr ⟨now, hexp now hnow, rfl⟩)
  have hfresh : ∀ j : ℕ, (nows.map fun now => getSteps now key)[j]? ≠ some (removeSteps key) := by
    intro j hj
    obtain ⟨now, -, hnow⟩ := List.mem_map.mp (List.mem_of_getElem? hj)
    exact getSteps_ne_removeSteps hnow
  have hsplit : ∀ before after, order = before ++ 0 :: after → before.count 0 = 1 →
      (m' key = some ⟨.string val, none⟩ ↔ ∀ j : ℕ, j + 1 ∈ before → j + 1 ∉ after) := by
    rintro before after rfl hcount
    rw [survives_before setNow hfin hrun hcount.le (by rw [hcount]; rfl) hflight (.inl hkey)]
    refine forall_congr' fun j => ?_
    rw [List.getElem?_cons_succ]
    simp only [hfresh j, false_or]
  constructor
  · rintro hvalue i hi ⟨before, after, horder, hcount, hbefore, hafter⟩
    obtain ⟨j, rfl⟩ := Nat.exists_eq_succ_of_ne_zero hi
    exact (hsplit before after horder hcount).mp hvalue j hbefore hafter
  · intro hnone
    obtain ⟨before, after, horder, hcount⟩ := exists_write hfin hrun rfl
    refine (hsplit before after horder hcount).mpr fun j hbefore hafter => ?_
    exact hnone (j + 1) (Nat.succ_ne_zero j) ⟨before, after, horder, hcount, hbefore, hafter⟩

end

/-! Two `GET`s at time 5 of a key that has expired at time 1. -/

/-- A string that expires at time 1. -/
def expiredEntry : Entry := ⟨.string (Utf8.toBytes "old"), some 1⟩

theorem finished_done (a b c : Frame) : Finished [(.done a : Steps), .done b, .done c] := by
  simp [Finished, Prog.isDone]

theorem not_straddles_between (i : ℕ) : ¬ Straddles [1, 0, 1, 0, 2] i := by
  rintro ⟨before, after, horder, hcount, hbefore, hafter⟩
  obtain _ | ⟨a, _ | ⟨b, _ | ⟨c, _ | ⟨d, rest⟩⟩⟩⟩ := before
  · simp at horder
  · simp only [List.cons_append, List.cons.injEq] at horder
    simp [← horder.1] at hcount
  · simp at horder
  · simp only [List.cons_append, List.nil_append, List.cons.injEq] at horder
    obtain ⟨rfl, rfl, rfl, -, rfl⟩ := horder
    simp only [List.mem_cons, List.not_mem_nil, or_false] at hbefore hafter
    omega
  · simp only [List.cons_append, List.cons.injEq] at horder
    obtain ⟨rfl, rfl, rfl, rfl, -⟩ := horder
    simp at hcount

/-- One `GET` removes the key before the write, the other comes after it. -/
theorem set_survives_between : ∃ ps m,
    runAll [1, 0, 1, 0, 2]
      (setSteps 5 "k" (Utf8.toBytes "new") :: [5, 5].map fun now => getSteps now "k")
      (fun _ => some expiredEntry) = some (ps, m) ∧ Finished ps ∧
      m "k" = some ⟨.string (Utf8.toBytes "new"), none⟩ := by
  obtain ⟨ps, m, hrun, hfin⟩ : ∃ ps m, runAll [1, 0, 1, 0, 2]
      (setSteps 5 "k" (Utf8.toBytes "new") :: [5, 5].map fun now => getSteps now "k")
      (fun _ => some expiredEntry) = some (ps, m) ∧ Finished ps :=
    ⟨_, _, rfl, finished_done _ _ _⟩
  have hsurvives := set_survives_iff (e := expiredEntry) rfl (by decide) hrun hfin
  exact ⟨ps, m, hrun, hfin, hsurvives.mpr fun i _ => not_straddles_between i⟩

/-- A `GET` looks before the write and removes after it : the `SET` is lost. -/
theorem set_lost : expiredEntry.isExpired 5 = true ∧ ∃ ps m,
    runAll [1, 0, 0, 1, 2]
      (setSteps 5 "k" (Utf8.toBytes "new") :: [5, 5].map fun now => getSteps now "k")
      (fun _ => some expiredEntry) = some (ps, m) ∧ Finished ps ∧ m "k" = none :=
  ⟨rfl, _, _, rfl, finished_done _ _ _, rfl⟩

end LoonyRedis
