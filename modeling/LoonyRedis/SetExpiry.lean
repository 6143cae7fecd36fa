import LoonyRedis.ErrorReplies

/-!
# The expiry that `SET` is asked for

The options of `SET` are read from left to right : `EX` and `PX` take the next argument, `NX` and
`XX` stand alone, and everything else is passed over (`setTokens`). The last `EX` or `PX` decides
the expiry (`foldl_setOption`). One whose argument is missing or no positive integer of 64 bits
decides that there is none, and `SET` replies OK all the same. So the expiry is stored as it was
asked for, or the command refused, exactly if all arguments of `EX` and `PX` are positive integers
and the last one fits into 64 bits if something is stored (`setExact_iff`).
-/

namespace LoonyRedis

/-- An option of `SET`. A time counts in units of so many nanoseconds. -/
inductive SetToken where
  | expiry (unit : ℕ) (value : Option Frame)
  | nx
  | xx
  | other

namespace SetToken

/-- The unit of the time that follows, after `EX` and `PX`. -/
def unitOf (f : Frame) : Option ℕ :=
  match bulkAsStr [f] 0 with
  | some "EX" => some Store.nanosPerSec
  | some "PX" => some Store.nanosPerMilli
  | _ => none

/-- An argument where an option is expected and no time. -/
def flagOf (f : Frame) : SetToken :=
  match bulkAsStr [f] 0 with
  | some "NX" => nx
  | some "XX" => xx
  | _ => other

/-- The unit and the argument of an expiry. -/
def expiry? : SetToken → Option (ℕ × Option Frame)
  | expiry unit value => some (unit, value)
  | _ => none

end SetToken

open SetToken (unitOf flagOf)

/-- The options in a list of arguments. -/
def setTokens : List Frame → List SetToken
  | [] => []
  | [f] =>
    match unitOf f with
    | some unit => [.expiry unit none]
    | none => [flagOf f]
  | f :: g :: fs =>
    match unitOf f with
    | some unit => .expiry unit (some g) :: setTokens fs
    | none => flagOf f :: setTokens (g :: fs)

/-- The expiries that are asked for. -/
def expiries (fs : List Frame) : List (ℕ × Option Frame) :=
  (setTokens fs).filterMap SetToken.expiry?

/-- The argument of an expiry is there, and is the positive integer `n`. -/
def IsAmount (value : Option Frame) (n : ℕ) : Prop :=
  0 < n ∧ ∃ f, value = some f ∧ integerArg [f] 0 = some (n : ℤ)

/-- Neither `NX` nor `XX` forbids to set the key. -/
def Permits (s : Store) (now : ℕ) (key : String) (fs : List Frame) : Prop :=
  (.nx ∈ setTokens fs → s.exists_ now key = false) ∧
    (.xx ∈ setTokens fs → s.exists_ now key = true)

/-- An expiry that is asked for is stored with the key, or the command is refused. -/
structure SetExact (s : Store) (key : String) (fs : List Frame) (env : Env) (o : Outcome) :
    Prop where
  stored : o.reply = .ok → ∃ unit value n e, (expiries fs).getLast? = some (unit, value) ∧
    IsAmount value n ∧ o.store[key]? = some e ∧ e.expiresAt = some (env.now + n * unit)
  refused : (∃ p ∈ expiries fs, ∀ n, ¬ IsAmount p.2 n) → o.reply.isError = true ∧ o.store = s

/-! ## What is read -/

/-- The time to live that an argument gives, if it gives one. -/
def timeOf (p : ℕ × Option Frame) : Option ℕ :=
  p.2.bind fun f => ((bulkAsI64 [f] 0).filter (0 < ·.1)).map fun n => n.1.toNat * p.1

/-- What an option changes. -/
def SetToken.apply (o : SetOptions) : SetToken → SetOptions
  | expiry unit value => { o with ttl := timeOf (unit, value) }
  | nx => { o with nx := true }
  | xx => { o with xx := true }
  | other => o

section Options

variable {o : SetOptions} {f : Frame} {fs : List Frame} {unit : ℕ}

theorem setOption_unit (ho : o.unit = none) (hf : unitOf f = some unit) :
    setOption o f = { o with ttl := none, unit := some unit } := by
  unfold unitOf at hf
  split at hf
  · next h =>
    rw [← hf]
    simp [setOption, ho, h]
  · next h =>
    rw [← hf]
    simp [setOption, ho, h]
  · cases hf

theorem setOption_flag (ho : o.unit = none) (hf : unitOf f = none) :
    setOption o f = (flagOf f).apply o := by
  unfold unitOf at hf
  unfold flagOf setOption
  rw [ho]
  dsimp only
  split at hf
  · cases hf
  · cases hf
  · next hex hpx =>
    split
    · next h => exact absurd h hex
    · next h => exact absurd h hpx
    · next h => simp [h, SetToken.apply, ho]
    · next h => simp [h, SetToken.apply, ho]
    · next hnx hxx =>
      split
      · next h => exact absurd h hnx
      · next h => exact absurd h hxx
      · rfl

theorem setOption_value (o : SetOptions) (unit : ℕ) (f : Frame) :
    setOption { o with ttl := none, unit := some unit } f =
      { (SetToken.expiry unit (some f)).apply o with unit := none } := rfl

theorem unit_apply (o : SetOptions) (t : SetToken) : (t.apply o).unit = o.unit := by
  cases t <;> rfl

/-- The options are applied from left to right. Only a unit whose time is missing may be left. -/
theorem foldl_setOption : ∀ (fs : List Frame) (o : SetOptions), o.unit = none →
    ∃ u, fs.foldl setOption o = { (setTokens fs).foldl SetToken.apply o with unit := u }
  | [], o, _ => ⟨o.unit, rfl⟩
  | [f], o, ho => by
    cases hf : unitOf f with
    | some unit =>
      refine ⟨some unit, ?_⟩
      rw [List.foldl_cons, List.foldl_nil, setOption_unit ho hf, setTokens, hf]
      rfl
    | none =>
      refine ⟨none, ?_⟩
      have hunit := unit_apply o (flagOf f)
      rw [List.foldl_cons, List.foldl_nil, setOption_flag ho hf, setTokens, hf]
      rw [ho] at hunit
      exact congrArg (SetOptions.mk _ _ _) hunit
  | f :: g :: fs, o, ho => by
    cases hf : unitOf f with
    | some unit =>
      have hsame : { (SetToken.expiry unit (some g)).apply o with unit := none } =
          (SetToken.expiry unit (some g)).apply o := congrArg (SetOptions.mk _ _ _) ho.symm
      obtain ⟨u, ih⟩ := foldl_setOption fs ((SetToken.expiry unit (some g)).apply o) ho
      refine ⟨u, ?_⟩
      rw [List.foldl_cons, List.foldl_cons, setOption_unit ho hf, setOption_value, hsame, ih,
        setTokens, hf]
      rfl
    | none =>
      obtain ⟨u, ih⟩ := foldl_setOption (g :: fs) ((flagOf f).apply o)
        ((unit_apply o _).trans ho)
      refine ⟨u, ?_⟩
      rw [List.foldl_cons, setOption_flag ho hf, ih, setTokens, hf]
      rfl

/-- The last expiry decides. -/
theorem ttl_foldl_apply : ∀ (ts : List SetToken) (o : SetOptions),
    (ts.foldl SetToken.apply o).ttl = (ts.filterMap SetToken.expiry?).getLast?.elim o.ttl timeOf
  | [], _ => rfl
  | t :: ts, o => by
    rw [List.foldl_cons, ttl_foldl_apply ts]
    cases t with
    | expiry unit value =>
      have hcons : (SetToken.expiry unit value :: ts).filterMap SetToken.expiry? =
          (unit, value) :: ts.filterMap SetToken.expiry? := rfl
      rw [hcons, List.getLast?_cons]
      cases (ts.filterMap SetToken.expiry?).getLast? <;> rfl
    | nx => rfl
    | xx => rfl
    | other => rfl

theorem nx_foldl_apply : ∀ (ts : List SetToken) (o : SetOptions),
    (ts.foldl SetToken.apply o).nx = true ↔ o.nx = true ∨ .nx ∈ ts
  | [], _ => by simp
  | t :: ts, o => by
    rw [List.foldl_cons, nx_foldl_apply ts, List.mem_cons]
    cases t <;> simp [SetToken.apply]

theorem xx_foldl_apply : ∀ (ts : List SetToken) (o : SetOptions),
    (ts.foldl SetToken.apply o).xx = true ↔ o.xx = true ∨ .xx ∈ ts
  | [], _ => by simp
  | t :: ts, o => by
    rw [List.foldl_cons, xx_foldl_apply ts, List.mem_cons]
    cases t <;> simp [SetToken.apply]

end Options

/-! ## What is stored -/

section Stored

variable {args : List Frame} {key : String} {val : Bytes} {s : Store} {ctx : CommandContext}
  {env : Env}

/-- The request of `SET` with its options. -/
theorem read_setOptions (hlen : 3 ≤ args.length) (hkey : bulkAsStr args 1 = some key)
    (hval : bulkBytes args 2 = some val) : ∃ nx xx, (nx = true ↔ .nx ∈ setTokens (args.drop 3)) ∧
      (xx = true ↔ .xx ∈ setTokens (args.drop 3)) ∧ readCommand ctx "SET" args =
        .ok (.set key val ((expiries (args.drop 3)).getLast?.elim none timeOf) nx xx) := by
  obtain ⟨u, hfold⟩ := foldl_setOption (args.drop 3) {} rfl
  have hnx := nx_foldl_apply (setTokens (args.drop 3)) {}
  have hxx := xx_foldl_apply (setTokens (args.drop 3)) {}
  refine ⟨_, _, hnx.trans (or_iff_right Bool.false_ne_true),
    hxx.trans (or_iff_right Bool.false_ne_true), ?_⟩
  rw [expiries, ← ttl_foldl_apply _ {}]
  change cmdSet args = _
  rw [cmdSet, strArg, bytesArg, hkey, hval, decide_eq_true hlen, hfold]
  rfl

/-- The reply of `SET`, and what is stored. -/
theorem dispatch_set (hlen : 3 ≤ args.length) (hkey : bulkAsStr args 1 = some key)
    (hval : bulkBytes args 2 = some val) :
    (Permits s env.now key (args.drop 3) →
      (dispatch ctx env "SET" args s).reply = .ok ∧
      (dispatch ctx env "SET" args s).store[key]? = some ⟨.string val,
        ((expiries (args.drop 3)).getLast?.elim none timeOf).map (env.now + ·)⟩) ∧
    (¬ Permits s env.now key (args.drop 3) →
      (dispatch ctx env "SET" args s).reply = .nullBulk) := by
  obtain ⟨nx, xx, hnx, hxx, hread⟩ := @read_setOptions _ _ _ ctx hlen hkey hval
  have hpermits : Permits s env.now key (args.drop 3) ↔
      (nx = true → s.exists_ env.now key = false) ∧ (xx = true → s.exists_ env.now key = true) := by
    rw [Permits, hnx, hxx]
  rw [dispatch, hread, hpermits]
  simp only [Request.run]
  cases hfound : s.exists_ env.now key <;> cases nx <;> cases xx <;> simp [Store.set]

theorem IsAmount.unique {value : Option Frame} {m n : ℕ} (hm : IsAmount value m)
    (hn : IsAmount value n) : m = n := by
  obtain ⟨-, f, rfl, hf⟩ := hm
  obtain ⟨-, g, hg, hgn⟩ := hn
  obtain rfl := Option.some.inj hg
  exact Int.ofNat.inj (Option.some.inj (hf.symm.trans hgn))

/-- The time to live is the amount, if it fits into 64 bits. -/
theorem timeOf_eq {value : Option Frame} {n : ℕ} (hn : IsAmount value n) (unit : ℕ) :
    timeOf (unit, value) = if (n : ℤ) ≤ Text.i64Max then some (n * unit) else none := by
  obtain ⟨hpos, f, rfl, hf⟩ := hn
  have hmin : Text.i64Min ≤ (n : ℤ) := by
    rw [Text.i64Min]
    omega
  rw [timeOf, Option.bind_some, bulkAsI64_eq, hf, Option.bind_some, Text.fits]
  by_cases hmax : (n : ℤ) ≤ Text.i64Max
  · rw [dif_pos ⟨hmin, hmax⟩, if_pos hmax]
    simp [Option.filter_some, hpos]
  · rw [dif_neg fun h => hmax h.2, if_neg hmax]
    rfl

/-- The expiry is stored, or the command refused, if and only if each `EX` and `PX` has a positive
integer, and the last one fits into 64 bits if `NX` and `XX` permit to set the key. -/
theorem setExact_iff (hlen : 3 ≤ args.length) (hkey : bulkAsStr args 1 = some key)
    (hval : bulkBytes args 2 = some val) (hne : expiries (args.drop 3) ≠ []) :
    SetExact s key (args.drop 3) env (dispatch ctx env "SET" args s) ↔
      (∀ p ∈ expiries (args.drop 3), ∃ n, IsAmount p.2 n) ∧
      (Permits s env.now key (args.drop 3) → ∀ unit value n,
        (expiries (args.drop 3)).getLast? = some (unit, value) → IsAmount value n →
          (n : ℤ) ≤ Text.i64Max) := by
  obtain ⟨hset, hforbidden⟩ := @dispatch_set _ _ _ s ctx env hlen hkey hval
  constructor
  · intro h
    constructor
    · intro p hp
      by_contra hnone
      push Not at hnone
      have herror := (h.refused ⟨p, hp, hnone⟩).1
      by_cases hpermits : Permits s env.now key (args.drop 3)
      · rw [(hset hpermits).1] at herror
        cases herror
      · rw [hforbidden hpermits] at herror
        cases herror
    · intro hpermits unit value n hlast hn
      obtain ⟨hreply, hstore⟩ := hset hpermits
      obtain ⟨unit', value', n', e, hlast', -, he, hexpires⟩ := h.stored hreply
      obtain rfl := Option.some.inj (hstore.symm.trans he)
      rw [hlast, Option.elim_some, timeOf_eq hn] at hexpires
      by_contra hmax
      rw [if_neg hmax] at hexpires
      cases hexpires
  · rintro ⟨hamounts, hfits⟩
    refine ⟨fun hreply => ?_, fun ⟨p, hp, hnone⟩ => ?_⟩
    · have hpermits : Permits s env.now key (args.drop 3) := by
        by_contra hnot
        cases hreply.symm.trans (hforbidden hnot)
      obtain ⟨⟨unit, value⟩, hlast⟩ := Option.isSome_iff_exists.mp
        (List.getLast?_isSome.mpr hne)
      obtain ⟨n, hn⟩ := hamounts _ (List.mem_of_getLast? hlast)
      refine ⟨unit, value, n, _, hlast, hn, (hset hpermits).2, ?_⟩
      rw [hlast, Option.elim_some, timeOf_eq hn, if_pos (hfits hpermits unit value n hlast hn)]
      rfl
    · obtain ⟨n, hn⟩ := hamounts p hp
      exact absurd hn (hnone n)

/-- `SET k v EX 60` expires the key in a minute. -/
theorem setExact_minute : SetExact ∅ "k" (["EX", "60"].map .bulkStr) (.plain 0)
    (dispatch .standalone (.plain 0) "SET" (["SET", "k", "v", "EX", "60"].map .bulkStr) ∅) := by
  have hexpiries : expiries (["EX", "60"].map .bulkStr) =
      [(Store.nanosPerSec, some (.bulkStr "60"))] := by decide
  have hamount : IsAmount (some (.bulkStr "60")) 60 := ⟨by decide, _, rfl, by decide⟩
  have hargs := @setExact_iff (["SET", "k", "v", "EX", "60"].map .bulkStr) "k" (Utf8.toBytes "v") ∅
    .standalone (.plain 0) (by decide) (by decide) (by decide) (by decide)
  refine hargs.mpr ⟨fun p hp => ⟨60, ?_⟩, ?_⟩
  · obtain rfl := List.mem_singleton.mp (hexpiries ▸ hp)
    exact hamount
  · intro _ unit value n hlast hn
    have hlast' : (expiries (["EX", "60"].map .bulkStr)).getLast? = some (unit, value) := hlast
    rw [hexpiries] at hlast'
    obtain rfl := (Prod.mk.inj (Option.some.inj hlast')).2
    rw [← hamount.unique hn]
    decide

/-- `SET k v EX 0` is not refused, and the key never expires. -/
theorem zero_never_expires :
    (dispatch .standalone (.plain 0) "SET" (["SET", "k", "v", "EX", "0"].map .bulkStr) ∅).reply =
      .ok ∧
    ¬ SetExact ∅ "k" (["EX", "0"].map .bulkStr) (.plain 0)
      (dispatch .standalone (.plain 0) "SET" (["SET", "k", "v", "EX", "0"].map .bulkStr) ∅) := by
  have hreply : (dispatch .standalone (.plain 0) "SET"
      (["SET", "k", "v", "EX", "0"].map .bulkStr) ∅).reply = .ok := by decide
  have hstore : ((dispatch .standalone (.plain 0) "SET"
      (["SET", "k", "v", "EX", "0"].map .bulkStr) ∅).store["k"]?.bind Entry.expiresAt) = none := by
    decide
  refine ⟨hreply, fun h => ?_⟩
  obtain ⟨_, _, _, e, _, _, he, hexpires⟩ := h.stored hreply
  rw [he, Option.bind_some, hexpires] at hstore
  cases hstore

end Stored

end LoonyRedis
