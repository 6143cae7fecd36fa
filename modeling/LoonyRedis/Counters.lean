import LoonyRedis.AofRecords
import LoonyRedis.CheckedRequests

/-!
# Counters

`INCR`, `INCRBY`, `DECR` and `DECRBY` add to the number in a string, with a checked addition :
the sum is stored and replied, or the store stays as it is. But `DECRBY` multiplies
its operand by -1 first, and this wraps for the least integer, which is then subtracted as if it
were added. And an entry that has expired is still counted on, but not read any more. The counter
is exact in all other cases (`counterExact_iff`).
-/

namespace LoonyRedis

/-- The command, with these arguments, adds the integer `x` to the counter `key`. -/
inductive Adds : String → List Frame → String → ℤ → Prop
  | incr {args : List Frame} {key : String} : args.length = 2 → bulkAsStr args 1 = some key →
    Adds "INCR" args key 1
  | decr {args : List Frame} {key : String} : args.length = 2 → bulkAsStr args 1 = some key →
    Adds "DECR" args key (-1)
  | incrby {args : List Frame} {key : String} {d : Text.I64} : args.length = 3 →
    bulkAsStr args 1 = some key → bulkAsI64 args 2 = some d → Adds "INCRBY" args key d
  | decrby {args : List Frame} {key : String} {d : Text.I64} : args.length = 3 →
    bulkAsStr args 1 = some key → bulkAsI64 args 2 = some d → Adds "DECRBY" args key (-d)

/-- The sum is stored as a text and replied if it is in the range, and otherwise the command is
refused. What is replied is what a later `GET` reads, unless the key expires in between. -/
structure CounterExact (s : Store) (key : String) (v x : ℤ) (ctx : CommandContext) (env : Env)
    (o : Outcome) : Prop where
  exact : IsI64 (v + x) → o.reply = .integer (v + x) ∧
    ∃ e, o.store[key]? = some e ∧ e.value = .string (Utf8.toBytes (toString (v + x)))
  refused : ¬ IsI64 (v + x) → o.reply.isError = true ∧ o.store[key]? = s[key]?
  read : ∀ n, o.reply = .integer n → ∀ env' : Env, env.now ≤ env'.now →
    (s.Fresh env.now key → s.Fresh env'.now key) →
    ∃ b, ((Request.get key).run ctx env' o.store).reply = .bulk (some b) ∧
      (Store.parseInt b).map Subtype.val = some n

section Additions

variable {name key : String} {args : List Frame} {v delta : Text.I64} {x : ℤ} {s : Store}
  {ctx : CommandContext} {env : Env}

theorem cmdIncrby_eq (hlen : args.length = 2) (hkey : bulkAsStr args 1 = some key) :
    ∃ record, cmdIncrby delta args = .ok (.incrby key delta record) := by
  rw [cmdIncrby, strArg, hkey, decide_eq_true hlen]
  exact ⟨_, rfl⟩

theorem cmdIncrbyBy_eq {sign : ℤ} {d : Text.I64} (hlen : args.length = 3)
    (hkey : bulkAsStr args 1 = some key) (hd : bulkAsI64 args 2 = some d) :
    ∃ record, cmdIncrbyBy sign args = .ok (.incrby key (Text.wrap (d * sign)) record) := by
  rw [cmdIncrbyBy, strArg, intArg, hkey, hd, decide_eq_true hlen]
  exact ⟨_, rfl⟩

theorem read_adds (h : Adds name args key x) : ∃ record,
    readCommand ctx name args = .ok (.incrby key (Text.wrap x) record) := by
  cases h with
  | incr hlen hkey => exact cmdIncrby_eq hlen hkey
  | decr hlen hkey => exact cmdIncrby_eq hlen hkey
  | @incrby _ _ d hlen hkey hd =>
    have heq := @cmdIncrbyBy_eq _ _ 1 _ hlen hkey hd
    rw [mul_one] at heq
    exact heq
  | @decrby _ _ d hlen hkey hd =>
    have heq := @cmdIncrbyBy_eq _ _ (-1) _ hlen hkey hd
    rw [mul_neg_one] at heq
    exact heq

/-- Only the opposite of the least integer does not fit. -/
theorem isI64_of_adds (h : Adds name args key x) : IsI64 x ∨ x = 2 ^ 63 := by
  have hmin : Text.i64Min = -2 ^ 63 := rfl
  have hmax : Text.i64Max = 2 ^ 63 - 1 := rfl
  rw [IsI64]
  cases h with
  | incr => omega
  | decr => omega
  | @incrby _ _ d => exact Or.inl d.2
  | @decrby _ _ d =>
    have hd := d.2
    omega

end Additions

/-! ## The checked addition -/

namespace Store

variable {key : String} {v delta r : Text.I64} {s : Store}

/-- A counter is missing and counts as zero, or it is a string with a number. -/
theorem counterAt_cases (hv : s.counterAt key = some v) :
    (s[key]? = none ∧ Store.parseInt (Utf8.toBytes "0") = some v) ∨
      ∃ e b, s[key]? = some e ∧ Kind.string.view e.value = some b ∧ parseInt b = some v := by
  unfold counterAt at hv
  obtain ⟨b, hview, hparse⟩ := Option.bind_eq_some_iff.mp hv
  cases he : s[key]? with
  | none =>
    rw [he, Option.getD_none] at hview
    obtain rfl := Option.some.inj hview
    exact Or.inl ⟨rfl, hparse⟩
  | some e =>
    rw [he, Option.getD_some] at hview
    exact Or.inr ⟨e, b, rfl, hview, hparse⟩

theorem incrby_of_fits (hv : s.counterAt key = some v) (hr : Text.checkedAdd v delta = some r) :
    s.incrby key delta = (.ok r, s.insert key
      ⟨.string (Utf8.toBytes (toString r.1)), s[key]?.bind Entry.expiresAt⟩) := by
  rcases counterAt_cases hv with ⟨hnone, hparse⟩ | ⟨e, b, he, hview, hparse⟩
  · rw [incrby, upsert_none hnone, hnone]
    simp only [hparse, hr, Option.bind_none]
    rfl
  · rw [incrby, upsert_some he hview, he]
    simp only [hparse, hr, Option.bind_some]
    rfl

theorem incrby_of_overflow (hv : s.counterAt key = some v)
    (hr : Text.checkedAdd v delta = none) :
    s.incrby key delta = (.error "ERR increment or decrement would overflow", s) := by
  rcases counterAt_cases hv with ⟨hnone, hparse⟩ | ⟨e, b, he, hview, hparse⟩
  · -- Zero can be added to.
    obtain ⟨z, hz, hadd⟩ := checkedAdd_zero delta
    rw [parseInt_zero, hz] at hparse
    obtain rfl := Option.some.inj hparse
    rw [hadd] at hr
    cases hr
  · rw [incrby, upsert_some he hview]
    simp only [hparse, hr]
    rw [insert_view he hview]

theorem checkedAdd_of_fits (h : IsI64 (v + delta)) :
    Text.checkedAdd v delta = some ⟨v + delta, h⟩ := dif_pos h

theorem checkedAdd_of_not_fits (h : ¬ IsI64 (v + delta)) : Text.checkedAdd v delta = none :=
  dif_neg h

/-- The sum expires when the entry before did. -/
theorem isExpired_kept_iff {val : Value} {now : ℕ} :
    (⟨val, s[key]?.bind Entry.expiresAt⟩ : Entry).isExpired now = false ↔ s.Fresh now key := by
  unfold Fresh
  cases s[key]? with
  | none => exact iff_of_true rfl fun e he => by cases he
  | some e =>
    simp only [Option.some.injEq, forall_eq']
    rfl

end Store

/-! ## Runs of the commands -/

section Runs

variable {name key : String} {args : List Frame} {v : Text.I64} {x : ℤ} {s : Store}
  {ctx : CommandContext} {env : Env}

theorem dispatch_adds (hadds : Adds name args key x) : ∃ record,
    dispatch ctx env name args s =
      .of (s.incrby key (Text.wrap x)) .integer fun _ => [record] := by
  obtain ⟨record, hread⟩ := @read_adds _ _ _ _ ctx hadds
  refine ⟨record, ?_⟩
  rw [dispatch, hread]
  rfl

/-- A `GET` of a string that has not expired. -/
theorem reply_get {e : Entry} {b : Bytes} (he : s[key]? = some e) (hvalue : e.value = .string b)
    (hfresh : e.isExpired env.now = false) :
    ((Request.get key).run ctx env s).reply = .bulk (some b) := by
  simp only [Request.run, Store.get, he, hfresh, hvalue, Bool.false_eq_true, if_false]

theorem reply_get_of_expired {e : Entry} (he : s[key]? = some e)
    (hexpired : e.isExpired env.now = true) :
    ((Request.get key).run ctx env s).reply = .nullBulk := by
  simp only [Request.run, Store.get, he, hexpired, if_true]

theorem exact_of_fits {delta : Text.I64} {record : Record} (hv : s.counterAt key = some v)
    (hsum : IsI64 (v + delta)) : CounterExact s key v delta ctx env
      (.of (s.incrby key delta) .integer fun _ => [record]) ↔ s.Fresh env.now key := by
  have hincr := Store.incrby_of_fits hv (Store.checkedAdd_of_fits hsum)
  have hstored {s : Store} {e : Entry} : (s.insert key e)[key]? = some e :=
    FinMap.getElem?_insert_self
  rw [hincr]
  constructor
  · intro h
    by_contra hexpired
    have hkept := @Store.isExpired_kept_iff key s
      (.string (Utf8.toBytes (toString (v.1 + delta.1)))) env.now
    rw [← hkept, Bool.not_eq_false] at hexpired
    obtain ⟨b, hread, -⟩ := h.read _ rfl env le_rfl id
    cases (reply_get_of_expired hstored hexpired).symm.trans hread
  · intro hfresh
    refine ⟨fun _ => ⟨rfl, _, hstored, rfl⟩, fun hnot => absurd hsum hnot, ?_⟩
    intro n hn env' hle hstays
    obtain rfl := Frame.integer.inj hn
    refine ⟨_, reply_get hstored rfl (Store.isExpired_kept_iff.mpr (hstays hfresh)), ?_⟩
    rw [Store.parseInt_toString ⟨v + delta, hsum⟩]
    rfl

theorem exact_of_not_fits {delta : Text.I64} {record : Record} (hv : s.counterAt key = some v)
    (hsum : ¬ IsI64 (v + delta)) : CounterExact s key v delta ctx env
      (.of (s.incrby key delta) .integer fun _ => [record]) := by
  rw [Store.incrby_of_overflow hv (Store.checkedAdd_of_not_fits hsum)]
  exact ⟨fun h => absurd h hsum, fun _ => ⟨rfl, rfl⟩, fun n hn => by cases hn⟩

/-- The least integer is added where it should be subtracted. -/
theorem not_exact_of_wraps {record : Record} (hv : s.counterAt key = some v) :
    ¬ CounterExact s key v (2 ^ 63) ctx env
      (.of (s.incrby key (Text.wrap (2 ^ 63))) .integer fun _ => [record]) := by
  have hmin : Text.i64Min = -2 ^ 63 := rfl
  have hmax : Text.i64Max = 2 ^ 63 - 1 := rfl
  have hwrap : (Text.wrap (2 ^ 63)).1 = -2 ^ 63 := by decide
  obtain ⟨hlo, hhi⟩ := v.2
  intro h
  by_cases hneg : v.1 < 0
  · have hsum : IsI64 (v + 2 ^ 63) := ⟨by omega, by omega⟩
    have hcode : ¬ IsI64 (v + (Text.wrap (2 ^ 63)).1) := by
      rw [hwrap, IsI64]
      omega
    rw [Store.incrby_of_overflow hv (Store.checkedAdd_of_not_fits hcode)] at h
    cases (h.exact hsum).1
  · have hsum : ¬ IsI64 (v + 2 ^ 63) := by
      rw [IsI64]
      omega
    have hcode : IsI64 (v + (Text.wrap (2 ^ 63)).1) := by
      rw [hwrap, IsI64]
      omega
    rw [Store.incrby_of_fits hv (Store.checkedAdd_of_fits hcode)] at h
    cases (h.refused hsum).1

/-- The counter is exact if and only if the operand is not the least integer for `DECRBY`, and the
entry has not expired when something is added to it. -/
theorem counterExact_iff (hv : s.counterAt key = some v) (hadds : Adds name args key x) :
    CounterExact s key v x ctx env (dispatch ctx env name args s) ↔
      x ≤ Text.i64Max ∧ (IsI64 (v + x) → s.Fresh env.now key) := by
  obtain ⟨record, hdispatch⟩ := @dispatch_adds _ _ _ _ s ctx env hadds
  rw [hdispatch]
  rcases isI64_of_adds hadds with hfits | rfl
  · obtain ⟨delta, rfl⟩ : ∃ delta : Text.I64, delta.1 = x := ⟨⟨x, hfits⟩, rfl⟩
    have hwrap : Text.wrap delta.1 = delta := Subtype.ext (Text.wrap_of_fits hfits)
    rw [hwrap, and_iff_right hfits.2]
    by_cases hsum : IsI64 (v + delta)
    · rw [exact_of_fits hv hsum, forall_prop_of_true hsum]
    · exact iff_of_true (exact_of_not_fits hv hsum) fun h => absurd h hsum
  · exact iff_of_false (not_exact_of_wraps hv) fun h => absurd h.1 (by decide)

end Runs

section Least

/-- `DECRBY` of 3 from a missing counter. -/
theorem counterExact_decrby : CounterExact ∅ "k" 0 (-3) .standalone (.plain 0)
    (dispatch .standalone (.plain 0) "DECRBY" (["DECRBY", "k", "3"].map .bulkStr) ∅) :=
  (counterExact_iff (v := ⟨0, by decide⟩) (by decide)
    (.decrby (d := ⟨3, by decide⟩) rfl (by decide) (by decide))).mpr
    ⟨by decide, fun _ e he => by simp at he⟩

/-- Subtracting the least integer from a missing counter stores the least integer. -/
theorem least_integer_is_added :
    (dispatch .standalone (.plain 0) "DECRBY"
      (["DECRBY", "k", "-9223372036854775808"].map .bulkStr) ∅).reply = .integer (-2 ^ 63) ∧
    ¬ CounterExact ∅ "k" 0 (2 ^ 63) .standalone (.plain 0)
      (dispatch .standalone (.plain 0) "DECRBY"
        (["DECRBY", "k", "-9223372036854775808"].map .bulkStr) ∅) := by
  have hreply : (dispatch .standalone (.plain 0) "DECRBY"
      (["DECRBY", "k", "-9223372036854775808"].map .bulkStr) ∅).reply = .integer (-2 ^ 63) := by
    decide
  refine ⟨hreply, fun h => ?_⟩
  have hsum : ¬ IsI64 (0 + 2 ^ 63) := by
    rw [IsI64]
    decide
  have hrefused := (h.refused hsum).1
  rw [hreply] at hrefused
  cases hrefused

end Least

end LoonyRedis
