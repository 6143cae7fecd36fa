import Mathlib.Data.List.Basic
import Mathlib.Logic.Function.Basic

/-!
# Programs that interleave over a map

A program works on a map by accesses to single keys, each of which reads the value there and
replaces it, and goes on according to what it read. `Interleave` is the run of two programs whose
accesses come in any order.

Two accesses to a key commute at a value if either goes on in the same way whether or not the
other comes before it, and both orders leave the same value. If each access of the second program
commutes with those of the first that come after it, at the values that are there without it, the
interleaved run is the run of the first program followed by the second (`Interleave.serial`).

`runAll` is the run of any number of programs, in an order that names whose access comes next.
-/

namespace Serial

variable {κ ν ρ ρ' : Type*}

/-- A program over a map from `κ` to `ν`, with a result in `ρ`. -/
inductive Prog (κ ν ρ : Type*)
  | done (r : ρ)
  | access (k : κ) (upd : ν → ν) (next : ν → Prog κ ν ρ)

/-- An access of a program. -/
structure Access (κ ν : Type*) where
  key : κ
  upd : ν → ν
  /-- The program goes on in the same way from these two values. -/
  like : ν → ν → Prop

/-- The access that a program is about to make. -/
def Prog.accessOf (k : κ) (upd : ν → ν) (next : ν → Prog κ ν ρ) : Access κ ν :=
  ⟨k, upd, fun v w => next v = next w⟩

/-- Two accesses to one key, in either order, at a value. -/
structure Access.Commutes (x y : Access κ ν) (v : ν) : Prop where
  second : y.like (x.upd v) v
  first : x.like (y.upd v) v
  upd : x.upd (y.upd v) = y.upd (x.upd v)

section Order

variable [DecidableEq κ]

/-- The access `x`, made when its key had the value `v`, commutes with each of a list of
accesses that come after it. -/
def Access.Passes (x : Access κ ν) : ν → List (Access κ ν) → Prop
  | _, [] => True
  | v, y :: ys =>
    if y.key = x.key then x.Commutes y v ∧ x.Passes (y.upd v) ys else x.Passes v ys

/-- The accesses of two programs in the order they are made, with the values they meet. -/
abbrev Trace (κ ν : Type*) := List ((ν × Access κ ν) ⊕ (ν × Access κ ν))

/-- The accesses of the first program. -/
def Trace.firsts (tr : Trace κ ν) : List (Access κ ν) :=
  tr.filterMap fun e => e.getLeft?.map Prod.snd

/-- All accesses of the second program can be put after those of the first. -/
def Trace.FirstBefore : Trace κ ν → Prop
  | [] => True
  | .inl _ :: tr => FirstBefore tr
  | .inr (v, x) :: tr => x.Passes v (firsts tr) ∧ FirstBefore tr

/-- The two programs with their roles exchanged. -/
def Trace.swap (tr : Trace κ ν) : Trace κ ν := tr.map Sum.swap

namespace Access

variable {x y : Access κ ν} {v : ν} {ys : List (Access κ ν)}

theorem passes_cons_of_eq (hkey : y.key = x.key) :
    x.Passes v (y :: ys) ↔ x.Commutes y v ∧ x.Passes (y.upd v) ys := by
  rw [Passes, if_pos hkey]

theorem passes_cons_of_ne (hkey : y.key ≠ x.key) : x.Passes v (y :: ys) ↔ x.Passes v ys := by
  rw [Passes, if_neg hkey]

theorem passes_of_keys : ∀ {ys : List (Access κ ν)}, (∀ y ∈ ys, y.key ≠ x.key) → x.Passes v ys
  | [], _ => trivial
  | y :: _, h => (passes_cons_of_ne (h y List.mem_cons_self)).mpr
      (passes_of_keys fun z hz => h z (List.mem_cons_of_mem _ hz))

end Access

/-- It is enough that the keys are different. -/
theorem Trace.firstBefore_of_keys : ∀ {tr : Trace κ ν}, tr.Pairwise (fun e e' =>
    ∀ k ∈ e.getRight?.map (Access.key ∘ Prod.snd), e'.getLeft?.map (Access.key ∘ Prod.snd) ≠ some k) →
    tr.FirstBefore
  | [], _ => trivial
  | .inl _ :: tr, h => @firstBefore_of_keys tr (List.pairwise_cons.mp h).2
  | .inr (v, x) :: tr, h => by
    obtain ⟨hhead, htail⟩ := List.pairwise_cons.mp h
    refine ⟨Access.passes_of_keys fun y hy hkey => ?_, firstBefore_of_keys htail⟩
    obtain ⟨e, he, hey⟩ := List.mem_filterMap.mp hy
    refine hhead e he x.key rfl ?_
    rw [← Option.map_map, hey, Option.map_some, hkey]

namespace Prog

/-- The program alone : its result, and the map afterwards. -/
def run : Prog κ ν ρ → (κ → ν) → ρ × (κ → ν)
  | done r, m => (r, m)
  | access k upd next, m => run (next (m k)) (Function.update m k (upd (m k)))

/-- The accesses of the program alone. -/
def accesses : Prog κ ν ρ → (κ → ν) → List (Access κ ν)
  | done _, _ => []
  | access k upd next, m =>
    accessOf k upd next :: accesses (next (m k)) (Function.update m k (upd (m k)))

/-- An access that commutes with the accesses of a program may come after it. -/
theorem run_passes (k : κ) (upd : ν → ν) (next : ν → Prog κ ν ρ') :
    ∀ (p : Prog κ ν ρ) (m : κ → ν),
      (accessOf k upd next).Passes (m k) (p.accesses (Function.update m k (upd (m k)))) →
      p.accesses (Function.update m k (upd (m k))) = p.accesses m ∧
      (p.run (Function.update m k (upd (m k)))).1 = (p.run m).1 ∧
      (p.run (Function.update m k (upd (m k)))).2 =
        Function.update (p.run m).2 k (upd ((p.run m).2 k)) ∧
      next ((p.run m).2 k) = next (m k)
  | done r, m, _ => ⟨rfl, rfl, rfl, rfl⟩
  | access k' upd' next', m, h => by
    rw [accesses] at h
    by_cases hk : k' = k
    · subst hk
      -- The two accesses meet, and the rest of the program goes on from `upd' (m k')`.
      rw [Function.update_self, Function.update_idem] at h
      have hkey : (accessOf k' upd' next').key = (accessOf k' upd next).key := rfl
      obtain ⟨⟨hsecond, hfirst, hupd⟩, hrest⟩ := (Access.passes_cons_of_eq hkey).mp h
      have hnext' : next' (upd (m k')) = next' (m k') := hsecond
      have hnext : next (upd' (m k')) = next (m k') := hfirst
      have hupd' : upd' (upd (m k')) = upd (upd' (m k')) := hupd.symm
      have ih := run_passes k' upd next (next' (m k')) (Function.update m k' (upd' (m k')))
      simp only [Function.update_self, Function.update_idem] at ih
      rw [hnext', hupd'] at hrest
      obtain ⟨haccesses, hresult, hmap, hsame⟩ := ih hrest
      simp only [accesses, run, Function.update_self, Function.update_idem, hnext', hupd']
      exact ⟨by rw [haccesses], hresult, hmap, hsame.trans hnext⟩
    · have hread : Function.update m k (upd (m k)) k' = m k' := Function.update_of_ne hk ..
      have hkept : Function.update m k' (upd' (m k')) k = m k := Function.update_of_ne (Ne.symm hk) ..
      have hswap : Function.update (Function.update m k (upd (m k))) k' (upd' (m k')) =
          Function.update (Function.update m k' (upd' (m k'))) k (upd (m k)) :=
        Function.update_comm (Ne.symm hk) ..
      have ih := run_passes k upd next (next' (m k')) (Function.update m k' (upd' (m k')))
      rw [hread, hswap] at h
      simp only [hkept] at ih
      obtain ⟨haccesses, hresult, hmap, hsame⟩ := ih ((Access.passes_cons_of_ne hk).mp h)
      simp only [accesses, run, hread, hswap]
      exact ⟨by rw [haccesses], hresult, hmap, hsame⟩

end Prog

/-- Two programs run together from `m` : the accesses in the order they are made, the two
results and the map at the end. -/
inductive Interleave : Prog κ ν ρ → Prog κ ν ρ' → (κ → ν) → Trace κ ν → ρ → ρ' → (κ → ν) → Prop
  | done (a : ρ) (b : ρ') (m : κ → ν) : Interleave (.done a) (.done b) m [] a b m
  | first {k : κ} {upd : ν → ν} {next : ν → Prog κ ν ρ} {q : Prog κ ν ρ'} {m m' : κ → ν}
      {tr : Trace κ ν} {a : ρ} {b : ρ'} :
      Interleave (next (m k)) q (Function.update m k (upd (m k))) tr a b m' →
      Interleave (.access k upd next) q m (.inl (m k, Prog.accessOf k upd next) :: tr) a b m'
  | second {k : κ} {upd : ν → ν} {next : ν → Prog κ ν ρ'} {p : Prog κ ν ρ} {m m' : κ → ν}
      {tr : Trace κ ν} {a : ρ} {b : ρ'} :
      Interleave p (next (m k)) (Function.update m k (upd (m k))) tr a b m' →
      Interleave p (.access k upd next) m (.inr (m k, Prog.accessOf k upd next) :: tr) a b m'

namespace Interleave

variable {p : Prog κ ν ρ} {q : Prog κ ν ρ'} {m m' : κ → ν} {a : ρ} {b : ρ'} {tr : Trace κ ν}

theorem swap (h : Interleave p q m tr a b m') : Interleave q p m tr.swap b a m' := by
  induction h with
  | done a b m => exact .done b a m
  | first _ ih => exact .second ih
  | second _ ih => exact .first ih

/-- If the accesses of the second program can be put after those of the first, the two programs
do what they do one after the other. -/
theorem serial (h : Interleave p q m tr a b m') (hord : tr.FirstBefore) :
    tr.firsts = p.accesses m ∧ a = (p.run m).1 ∧ (b, m') = q.run (p.run m).2 := by
  induction h with
  | done a b m => exact ⟨rfl, rfl, rfl⟩
  | first _ ih =>
    obtain ⟨htr, ha, hb⟩ := ih hord
    exact ⟨congrArg _ htr, ha, hb⟩
  | @second k upd next p m m' tr a b _ ih =>
    obtain ⟨hpass, htail⟩ := hord
    obtain ⟨htr, ha, hb⟩ := ih htail
    rw [htr] at hpass
    obtain ⟨haccesses, hresult, hmap, hsame⟩ := Prog.run_passes k upd next p m hpass
    refine ⟨htr.trans haccesses, ha.trans hresult, ?_⟩
    rw [Prog.run, hsame, ← hmap]
    exact hb

end Interleave

/-- The run in which `true` stands for an access of the first program. -/
def exec : List Bool → Prog κ ν ρ → Prog κ ν ρ' → (κ → ν) →
    Option (Trace κ ν × ρ × ρ' × (κ → ν))
  | [], .done a, .done b, m => some ([], a, b, m)
  | true :: order, .access k upd next, q, m =>
    (exec order (next (m k)) q (Function.update m k (upd (m k)))).map fun r =>
      (.inl (m k, Prog.accessOf k upd next) :: r.1, r.2)
  | false :: order, p, .access k upd next, m =>
    (exec order p (next (m k)) (Function.update m k (upd (m k)))).map fun r =>
      (.inr (m k, Prog.accessOf k upd next) :: r.1, r.2)
  | _, _, _, _ => none

theorem interleave_of_exec (order : List Bool) {p : Prog κ ν ρ} {q : Prog κ ν ρ'} {m : κ → ν}
    {r : Trace κ ν × ρ × ρ' × (κ → ν)} (h : exec order p q m = some r) :
    Interleave p q m r.1 r.2.1 r.2.2.1 r.2.2.2 := by
  fun_induction exec order p q m generalizing r with
  | case1 a b m =>
    obtain rfl := Option.some.inj h
    exact .done a b m
  | case2 q m order k upd next ih =>
    obtain ⟨r', hr', rfl⟩ := Option.map_eq_some_iff.mp h
    exact .first (ih hr')
  | case3 p m order k upd next ih =>
    obtain ⟨r', hr', rfl⟩ := Option.map_eq_some_iff.mp h
    exact .second (ih hr')
  | case4 => cases h

/-- A computed run, with what a test finds of it. -/
theorem exists_interleave_of_exec {order : List Bool} {p : Prog κ ν ρ} {q : Prog κ ν ρ'}
    {m : κ → ν} {test : Trace κ ν × ρ × ρ' × (κ → ν) → Bool}
    (h : (exec order p q m).any test = true) :
    ∃ tr a b m', Interleave p q m tr a b m' ∧ test (tr, a, b, m') = true := by
  cases hexec : exec order p q m with
  | none => simp [hexec] at h
  | some r => exact ⟨_, _, _, _, interleave_of_exec order hexec, by simpa [hexec] using h⟩

/-! ## Any number of programs -/

/-- Whether the program has ended. -/
def Prog.isDone : Prog κ ν ρ → Bool
  | done _ => true
  | access .. => false

/-- The next access of program `i`, if it has one. -/
def accessBy (i : ℕ) (ps : List (Prog κ ν ρ)) (m : κ → ν) :
    Option (List (Prog κ ν ρ) × (κ → ν)) :=
  match ps[i]? with
  | some (.access k upd next) => some (ps.set i (next (m k)), Function.update m k (upd (m k)))
  | _ => none

/-- The programs and the map after accesses in the given order. -/
def runAll : List ℕ → List (Prog κ ν ρ) → (κ → ν) → Option (List (Prog κ ν ρ) × (κ → ν))
  | [], ps, m => some (ps, m)
  | i :: order, ps, m => (accessBy i ps m).bind fun r => runAll order r.1 r.2

/-- All programs have come to their results. -/
def Finished (ps : List (Prog κ ν ρ)) : Prop := ∀ p ∈ ps, p.isDone = true

section RunAll

variable {ps ps' : List (Prog κ ν ρ)} {m m' : κ → ν} {order : List ℕ} {i j : ℕ} {p : Prog κ ν ρ}

theorem accessBy_eq_some (h : accessBy i ps m = some (ps', m')) :
    ∃ k upd next, ps[i]? = some (.access k upd next) ∧ ps' = ps.set i (next (m k)) ∧
      m' = Function.update m k (upd (m k)) := by
  unfold accessBy at h
  split at h
  · next k upd next hp =>
    obtain ⟨rfl, rfl⟩ := Prod.mk.inj (Option.some.inj h)
    exact ⟨k, upd, next, hp, rfl, rfl⟩
  · cases h

theorem runAll_cons_eq_some (h : runAll (i :: order) ps m = some (ps', m')) :
    ∃ k upd next, ps[i]? = some (.access k upd next) ∧
      runAll order (ps.set i (next (m k))) (Function.update m k (upd (m k))) = some (ps', m') := by
  obtain ⟨⟨ps₁, m₁⟩, hstep, hrest⟩ := Option.bind_eq_some_iff.mp h
  obtain ⟨k, upd, next, hp, rfl, rfl⟩ := accessBy_eq_some hstep
  exact ⟨k, upd, next, hp, hrest⟩

/-- A program that makes no access stays where it is. -/
theorem getElem?_runAll : ∀ {order : List ℕ} {ps : List (Prog κ ν ρ)} {m : κ → ν},
    runAll order ps m = some (ps', m') → i ∉ order → ps'[i]? = ps[i]?
  | [], ps, m, h, _ => by
    obtain ⟨rfl, -⟩ := Prod.mk.inj (Option.some.inj h)
    rfl
  | j :: order, ps, m, h, hi => by
    obtain ⟨k, upd, next, -, hrest⟩ := runAll_cons_eq_some h
    have hne := List.ne_of_not_mem_cons hi
    rw [getElem?_runAll hrest (List.not_mem_of_not_mem_cons hi), List.getElem?_set_ne hne.symm]

/-- A program that has not come to its result will make an access. -/
theorem mem_of_finished (h : runAll order ps m = some (ps', m')) (hfin : Finished ps')
    (hp : ps[i]? = some p) (hnot : p.isDone = false) : i ∈ order := by
  by_contra hi
  rw [← getElem?_runAll h hi] at hp
  have hdone := hfin p (List.mem_of_getElem? hp)
  rw [hnot] at hdone
  cases hdone

/-- One that has will not. -/
theorem not_mem_of_done : ∀ {order : List ℕ} {ps : List (Prog κ ν ρ)} {m : κ → ν} {r : ρ},
    runAll order ps m = some (ps', m') → ps[i]? = some (.done r) → i ∉ order
  | [], _, _, _, _, _ => List.not_mem_nil
  | j :: order, ps, m, r, h, hi => by
    obtain ⟨k, upd, next, hj, hrest⟩ := runAll_cons_eq_some h
    have hne : j ≠ i := by
      rintro rfl
      rw [hi] at hj
      cases hj
    refine List.not_mem_cons_of_ne_of_not_mem hne.symm (not_mem_of_done hrest (r := r) ?_)
    rw [List.getElem?_set_ne hne, hi]

end RunAll

end Order

end Serial
