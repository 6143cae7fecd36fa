import LoonyRedis.Contents
import LoonyRedis.ErrorReplies
import LoonyRedis.Lib.Window
import LoonyRedis.ListEncodings

/-!
# Parts of a list

`LRANGE` and `LTRIM` are about the same window of positions, but compute it differently. `ltrim`
ends at a last position, which may be -1 as an unsigned integer, and is right for all indexes
(`RedisList.toVec_ltrim`). `lrange` ends one position further, which wraps for the greatest index :
then nothing is returned, which is right only if the window is empty (`Store.windowsAgree_iff`).

`LPOP` and `RPOP` pop elements one after the other, as many as the count says. But a count of zero
pops one element, and so does a count that is too great for 64 bits (`popsCount_iff`).
-/

namespace LoonyRedis

open Window (first last first_nonneg last_lt window)

namespace RedisList

variable {l : RedisList} {start stop : ℤ}

theorem length_toVec (l : RedisList) : l.toVec.length = l.len := rfl

/-- The elements up to a position behind the last one of the window. -/
theorem range_eq_window {s e : ℕ} (hs : s = (first l.len start).toNat)
    (he : e = (last l.len stop + 1).toNat) : l.range s e = window l.toVec start stop := by
  have hmin : min e l.len = e := by
    have hlt := last_lt l.len stop
    omega
  rw [← Window.take_drop_eq_window (p := (s, e)) l.length_toVec hs he]
  simp only [range, hmin]

theorem toVec_ltrim (hlen : l.len < 2 ^ 63) (start stop : Text.I64) :
    (l.ltrim start stop).toVec = window l.toVec start stop := by
  obtain ⟨start, hstart⟩ := start
  obtain ⟨stop, hstop⟩ := stop
  have hs : Text.asUsize (max (if start < 0 then (Text.wrap (l.len + start)).1 else start) 0) =
      (first l.len start).toNat :=
    Window.textWindow_fst stop (by omega) (by omega) hstart.1 hstart.2
  have hcut : max (min (if stop < 0 then (Text.wrap (l.len + stop)).1 else stop) (l.len - 1)) (-1) =
      max (last l.len stop) (-1) := by
    rw [last]
    split
    · have hfits : Text.i64Min ≤ l.len + stop ∧ l.len + stop ≤ Text.i64Max := by
        simp only [Text.i64Min, Text.i64Max] at hstop ⊢
        omega
      rw [Text.wrap_of_fits hfits]
      omega
    · omega
  have hfirst := first_nonneg l.len start
  have hlast := last_lt l.len stop
  simp only [ltrim, hs, hcut]
  rcases lt_or_ge (last l.len stop) 0 with hneg | hnonneg
  · -- The window is empty, and one position behind -1 is the front.
    have hmax : max (last l.len stop) (-1) = -1 := by omega
    have hwrap : Text.addUsize (Text.asUsize (-1)) 1 = 0 := by decide
    have hnil : window l.toVec start stop = [] := Window.between_eq_nil (by
      rw [length_toVec]
      omega)
    have hrange : l.range (first l.len start).toNat 0 = [] := range_eq_nil.mpr (by omega)
    rw [hmax, hwrap, hnil, hrange]
    split <;> rfl
  · have hmax : Text.asUsize (max (last l.len stop) (-1)) = (last l.len stop).toNat := by
      rw [Text.asUsize_of_nonneg (by omega) (by rw [Text.i64Max]; omega)]
      omega
    have hnext : Text.addUsize (last l.len stop).toNat 1 = (last l.len stop + 1).toNat := by
      rw [Text.addUsize, Nat.mod_eq_of_lt (by omega)]
      omega
    rw [hmax, hnext]
    split
    · have hnil : window l.toVec start stop = [] := Window.between_eq_nil (by
        rw [length_toVec]
        omega)
      exact hnil.symm
    · exact range_eq_window rfl rfl

end RedisList

/-! ## Windows of a list -/

namespace Store

variable {s : Store} {key : String} {e : Entry} {l : RedisList} {start stop : Text.I64}

/-- Reading a window of the list at a key, and trimming the list to it, are about the elements in
the window. -/
structure WindowsAgree (s : Store) (key : String) (l : RedisList) (start stop : Text.I64) :
    Prop where
  lrange : s.lrange key start stop = .ok (window l.toVec start stop)
  ltrim : (l.ltrim start stop).toVec = window l.toVec start stop
  trimmed : (s.ltrim key start stop).2.lrange key 0 (-1) = s.lrange key start stop

theorem lrange_eq (he : s[key]? = some e) (hv : Kind.list.view e.value = some l)
    (hlen : l.len < 2 ^ 63) (hstop : stop.1 ≠ Text.i64Max) :
    lrange key start stop s = .ok (window l.toVec start stop) := by
  obtain ⟨start, hstart⟩ := start
  obtain ⟨stop, hstop'⟩ := stop
  have hlt : stop < Text.i64Max := lt_of_le_of_ne hstop'.2 hstop
  rw [lrange, read_some he hv]
  exact congrArg Except.ok (RedisList.range_eq_window
    (Window.textWindow_fst stop (by omega) (by omega) hstart.1 hstart.2)
    (Window.textWindow_snd start (by omega) (by omega) hstop'.1 hlt))

theorem lrange_max (he : s[key]? = some e) (hv : Kind.list.view e.value = some l) :
    lrange key start Text.i64Max s = .ok [] := by
  have hnil : l.range (Text.window l.len start Text.i64Max).1
      (Text.window l.len start Text.i64Max).2 = [] :=
    RedisList.range_eq_nil.mpr (by
      rw [Window.textWindow_snd_max]
      omega)
  rw [lrange, read_some he hv]
  exact congrArg Except.ok hnil

theorem window_max_eq_nil_iff (hlen : l.len < 2 ^ 63) (start : ℤ) :
    window l.toVec start Text.i64Max = [] ↔ (l.len : ℤ) ≤ first l.len start := by
  have hfirst := first_nonneg l.len start
  have hlast : last l.len Text.i64Max = l.len - 1 := by
    rw [last, Text.i64Max]
    omega
  rw [← List.length_eq_zero_iff, window, l.length_toVec, Window.length_between hfirst (by
    rw [l.length_toVec, hlast]
    omega), hlast]
  omega

/-- Both agree with the window, and with each other, unless the last index is the greatest one and
the window is not empty. -/
theorem windowsAgree_iff (he : s[key]? = some e) (hv : Kind.list.view e.value = some l)
    (hlen : l.len < 2 ^ 63) :
    s.WindowsAgree key l start stop ↔
      stop.1 ≠ Text.i64Max ∨ (l.len : ℤ) ≤ first l.len start := by
  have hread : lrange key start stop s = .ok (window l.toVec start stop) ↔
      stop.1 ≠ Text.i64Max ∨ (l.len : ℤ) ≤ first l.len start := by
    by_cases hstop : stop.1 = Text.i64Max
    · rw [hstop, lrange_max he hv, or_iff_right (not_not.mpr rfl),
        ← window_max_eq_nil_iff hlen start, Except.ok.injEq]
      exact eq_comm
    · exact iff_of_true (lrange_eq he hv hlen hstop) (Or.inl hstop)
  refine ⟨fun h => hread.mp h.lrange, fun h => ?_⟩
  have htrim := RedisList.toVec_ltrim hlen start stop
  refine ⟨hread.mpr h, htrim, ?_⟩
  have hstore : (ltrim key start stop s).2 =
      s.insert key { e with value := .list (l.ltrim start stop) } := by
    rw [ltrim, update_some he hv]
    rfl
  have hlen' : (l.ltrim start stop).len < 2 ^ 63 := by
    have hle := (Window.between_sublist l.toVec (first l.toVec.length start)
      (last l.toVec.length stop)).length_le
    have hlength := congrArg List.length htrim
    rw [window] at hlength
    rw [← RedisList.length_toVec, hlength]
    exact lt_of_le_of_lt hle hlen
  have hwhole := @lrange_eq (s.insert key { e with value := .list (l.ltrim start stop) }) key _ _
    ⟨0, by decide⟩ ⟨-1, by decide⟩ FinMap.getElem?_insert_self rfl hlen' (by decide)
  rw [hread.mpr h, hstore]
  exact hwhole.trans (congrArg Except.ok ((Window.window_whole _).trans htrim))

section Greatest

/-- A list with one element. -/
def oneElement : Store := (∅ : Store).insert "l" ⟨.list (.small [[0x61]]), none⟩

theorem oneElement_l : oneElement["l"]? = some ⟨.list (.small [[0x61]]), none⟩ :=
  FinMap.getElem?_insert_self

theorem windowsAgree_oneElement :
    oneElement.WindowsAgree "l" (.small [[0x61]]) ⟨0, by decide⟩ ⟨-1, by decide⟩ :=
  (windowsAgree_iff oneElement_l rfl (by decide)).mpr (Or.inl (by decide))

/-- From the first element to the greatest index is nothing, but trimming leaves the element. -/
theorem greatest_index_wraps :
    lrange "l" 0 Text.i64Max oneElement = .ok [] ∧
    (RedisList.ltrim (.small [[0x61]]) 0 Text.i64Max).toVec = [[0x61]] ∧
    ¬ oneElement.WindowsAgree "l" (.small [[0x61]]) ⟨0, by decide⟩ ⟨Text.i64Max, by decide⟩ := by
  have hread : lrange "l" 0 Text.i64Max oneElement = .ok [] :=
    @lrange_max _ _ _ _ ⟨0, by decide⟩ oneElement_l rfl
  have hwindow : window [[(0x61 : UInt8)]] 0 Text.i64Max = [[0x61]] := by decide
  refine ⟨hread, by decide, fun h => ?_⟩
  have hlrange := hread.symm.trans h.lrange
  cases hlrange.trans (congrArg Except.ok hwindow)

end Greatest

end Store

/-! ## Pops -/

/-- The elements of the list at a key. -/
def Store.elementsAt (s : Store) (key : String) : Option (List Bytes) :=
  s[key]?.bind fun e => (Kind.list.view e.value).map RedisList.toVec

/-- Of a list with the elements `v`, the first ones (or the last ones, the last one first) are
replied, as many as the count says or all of them, and the others are left. -/
structure PopsCount (left : Bool) (key : String) (v : List Bytes) (c : ℕ) (o : Outcome) : Prop where
  popped : o.reply = .bulks ((if left then v else v.reverse).take (min c v.length))
  rest : o.store.elementsAt key = some
    (if left then v.drop (min c v.length) else v.take (v.length - min c v.length))
  together : ∃ popped rest, o.reply = .bulks popped ∧ o.store.elementsAt key = some rest ∧
    (if left then popped ++ rest else rest ++ popped.reverse) = v

section Pops

variable {left : Bool} {args : List Frame} {key : String} {s : Store} {e : Entry} {l : RedisList}
  {c : ℕ} {ctx : CommandContext} {env : Env}

theorem run_pop (he : s[key]? = some e) (hv : Kind.list.view e.value = some l) (k : ℕ) :
    ((Request.pop left key k true).run ctx env s).reply =
        .bulks ((if left then l.toVec else l.toVec.reverse).take (max k 1)) ∧
      ((Request.pop left key k true).run ctx env s).store.elementsAt key = some
        (if left then l.toVec.drop (max k 1) else l.toVec.take (l.toVec.length - max k 1)) := by
  have hheld (l' : RedisList) :
      Store.elementsAt (s.insert key { e with value := .list l' }) key = some l'.toVec := by
    rw [Store.elementsAt, FinMap.getElem?_insert_self]
    rfl
  cases left with
  | true =>
    obtain ⟨hfst, hsnd⟩ := ListOp.popN_popFront (max k 1) l
    have hpop : s.lpop key (max k 1) = (.ok (l.popFrontN (max k 1)).1,
        s.insert key { e with value := .list (l.popFrontN (max k 1)).2 }) := Store.update_some he hv
    simp only [Request.run, if_true, hpop, Outcome.change, Outcome.of, poppedFrame]
    exact ⟨congrArg Frame.bulks hfst, (hheld _).trans (congrArg some hsnd)⟩
  | false =>
    obtain ⟨hfst, hsnd⟩ := ListOp.popN_popBack (max k 1) l
    have hpop : s.rpop key (max k 1) = (.ok (l.popBackN (max k 1)).1,
        s.insert key { e with value := .list (l.popBackN (max k 1)).2 }) := Store.update_some he hv
    simp only [Request.run, Bool.false_eq_true, if_false, hpop, Outcome.change, Outcome.of,
      poppedFrame, if_true]
    exact ⟨congrArg Frame.bulks hfst, (hheld _).trans (congrArg some hsnd)⟩

/-- What is popped for a count. -/
def popCount (c : ℕ) : ℕ := if c = 0 ∨ Text.i64Max < c then 1 else c

theorem read_pop (hlen : 3 ≤ args.length) (hkey : bulkAsStr args 1 = some key)
    (hcount : integerArg args 2 = some (c : ℤ)) :
    ∃ k, max k 1 = popCount c ∧
      readCommand ctx (if left then "LPOP" else "RPOP") args = .ok (.pop left key k true) := by
  refine ⟨(max (((bulkAsI64 args 2).map Subtype.val).getD 1) 0).toNat, ?_, ?_⟩
  · rw [bulkAsI64_eq, hcount, Option.bind_some, Text.fits, popCount]
    have hmin : Text.i64Min ≤ (c : ℤ) := by
      rw [Text.i64Min]
      omega
    by_cases hmax : (c : ℤ) ≤ Text.i64Max
    · rw [dif_pos ⟨hmin, hmax⟩, Option.map_some, Option.getD_some]
      dsimp only
      split <;> omega
    · rw [dif_neg fun h => hmax h.2, if_pos (Or.inr (not_le.mp hmax))]
      rfl
  · have hargs : popCommand (if left then "lpop" else "rpop") left args = .ok (.pop left key
        (max (((bulkAsI64 args 2).map Subtype.val).getD 1) 0).toNat true) := by
      have htwo : 2 ≤ args.length := by omega
      simp [popCommand, require, strArg, need, hkey, hlen, htwo, bind, Except.bind, pure,
        Except.pure]
    cases left <;> exact hargs

/-- A pop with a count is right if and only if the count fits into 64 bits or at most one element
is there, and the count is not zero or no element is there. -/
theorem popsCount_iff (he : s[key]? = some e) (hv : Kind.list.view e.value = some l)
    (hlen : 3 ≤ args.length) (hkey : bulkAsStr args 1 = some key)
    (hcount : integerArg args 2 = some (c : ℤ)) :
    PopsCount left key l.toVec c (dispatch ctx env (if left then "LPOP" else "RPOP") args s) ↔
      (c = 0 → l.len = 0) ∧ (Text.i64Max < c → l.len ≤ 1) := by
  obtain ⟨k, hk, hread⟩ := @read_pop left _ _ _ ctx hlen hkey hcount
  obtain ⟨hreply, hstore⟩ := @run_pop left _ _ _ _ ctx env he hv k
  have hdispatch : dispatch ctx env (if left then "LPOP" else "RPOP") args s =
      (Request.pop left key k true).run ctx env s := by
    rw [dispatch, hread]
  have hmin : min (popCount c) l.toVec.length = min c l.toVec.length ↔
      (c = 0 → l.len = 0) ∧ (Text.i64Max < c → l.len ≤ 1) := by
    have hmax : 1 < Text.i64Max := by decide
    rw [popCount, RedisList.len]
    split <;> omega
  rw [hk] at hreply hstore
  rw [hdispatch, ← hmin]
  constructor
  · intro h
    have hrest := congrArg List.length (Option.some.inj (hstore.symm.trans h.rest))
    cases left with
    | true =>
      simp only [if_true, List.length_drop] at hrest
      omega
    | false =>
      simp only [Bool.false_eq_true, if_false, List.length_take] at hrest
      omega
  · intro heq
    have hpopped : (if left then l.toVec else l.toVec.reverse).take (popCount c) =
        (if left then l.toVec else l.toVec.reverse).take (min c l.toVec.length) := by
      have hlength : (if left then l.toVec else l.toVec.reverse).length = l.toVec.length := by
        cases left <;> simp
      rw [← heq, List.take_eq_take_min, hlength]
    have hleft : (if left then l.toVec.drop (popCount c)
        else l.toVec.take (l.toVec.length - popCount c)) =
        if left then l.toVec.drop (min c l.toVec.length)
        else l.toVec.take (l.toVec.length - min c l.toVec.length) := by
      have hsub : l.toVec.length - popCount c = l.toVec.length - min c l.toVec.length := by omega
      rw [List.drop_eq_drop_min, heq, hsub]
    refine ⟨hreply.trans (congrArg Frame.bulks hpopped), hstore.trans (congrArg some hleft),
      _, _, hreply, hstore, ?_⟩
    cases left with
    | true => exact List.take_append_drop _ _
    | false =>
      simp only [Bool.false_eq_true, if_false]
      rw [List.take_reverse, List.reverse_reverse, List.take_append_drop]

/-- The last two of three elements. -/
theorem popsCount_twoOfThree : PopsCount false "l" [[0x61], [0x62], [0x63]] 2
    (dispatch .standalone (.plain 0) "RPOP" (["RPOP", "l", "2"].map .bulkStr)
      ((∅ : Store).insert "l" ⟨.list (.small [[0x61], [0x62], [0x63]]), none⟩)) :=
  (@popsCount_iff false _ _ _ _ (.small [[0x61], [0x62], [0x63]]) _ _ _
    FinMap.getElem?_insert_self rfl (by decide) (by decide) (by decide)).mpr (by decide)

/-- A count of zero pops an element. -/
theorem zero_pops_one : ¬ PopsCount true "l" [[0x61]] 0
    (dispatch .standalone (.plain 0) "LPOP" (["LPOP", "l", "0"].map .bulkStr)
      Store.oneElement) := by
  intro h
  have hreply : (dispatch .standalone (.plain 0) "LPOP" (["LPOP", "l", "0"].map .bulkStr)
      Store.oneElement).reply = .bulks [[0x61]] := by decide
  cases Frame.bulks_injective (hreply.symm.trans h.popped)

end Pops

end LoonyRedis
