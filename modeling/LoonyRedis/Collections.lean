import LoonyRedis.Lib.FinMap
import LoonyRedis.Lib.Text
import LoonyRedis.Lib.Utf8
import Mathlib.Data.List.Nodup

/-!
# Lists, hashes and sets in two encodings

Each collection has a compact encoding for few short elements and a large one, and moves
from the first to the second when an element is added that is past a threshold. The
encodings hold the same abstract value : `RedisList.toVec` is a sequence,
`RedisHash.get` a finite map, `RedisSet.contains` a finite set.

The compact hash and set are lists without repetition, carried by their types. The
listing of a large one comes in the order of the hash table, which `Env` gives : any
permutation of the entries, a fresh one for each use.
-/

namespace LoonyRedis

open Std

/-- The number of elements up to which a collection is compact. -/
def maxListpackEntries : ℕ := 128

/-- The length of an element up to which a collection is compact. -/
def maxElementBytes : ℕ := 64

/-! ## The surroundings of a command -/

/-- What a command reads beside the store and its arguments : the time in nanoseconds, the
orders in which hash tables are listed and the outcomes of random draws. -/
structure Env where
  now : ℕ
  keyOrder : List String → List String
  memberOrder : List Bytes → List Bytes
  pairOrder : List (Bytes × Bytes) → List (Bytes × Bytes)
  /-- A random permutation. -/
  shuffle : List Bytes → List Bytes
  /-- The random index of draw `i` from `n` elements. -/
  draw : ℕ → ℕ → ℕ
  keyOrder_perm : ∀ l, (keyOrder l).Perm l
  memberOrder_perm : ∀ l, (memberOrder l).Perm l
  pairOrder_perm : ∀ l, (pairOrder l).Perm l
  shuffle_perm : ∀ l, (shuffle l).Perm l
  draw_lt : ∀ i n, 0 < n → draw i n < n

/-- Listings in the order of the keys, and no shuffling. -/
def Env.plain (now : ℕ) : Env where
  now := now
  keyOrder := id
  memberOrder := id
  pairOrder := id
  shuffle := id
  draw _ _ := 0
  keyOrder_perm _ := List.Perm.refl _
  memberOrder_perm _ := List.Perm.refl _
  pairOrder_perm _ := List.Perm.refl _
  shuffle_perm _ := List.Perm.refl _
  draw_lt _ _ h := h

/-! ## Lists -/

/-- A list, in a `Vec` while it is small and in a `VecDeque` afterwards. -/
inductive RedisList where
  | small (v : List Bytes)
  | large (d : List Bytes)
  deriving DecidableEq

namespace RedisList

/-- The empty list is small. -/
def new : RedisList := small []

/-- The elements, from head to tail. -/
def toVec : RedisList → List Bytes
  | small v => v
  | large d => d

/-- Change the elements in the same encoding. -/
def map (f : List Bytes → List Bytes) : RedisList → RedisList
  | small v => small (f v)
  | large d => large (f d)

/-- The number of elements. -/
def len (l : RedisList) : ℕ := l.toVec.length

/-- Whether there is no element. -/
def isEmpty (l : RedisList) : Bool := l.len = 0

/-- Whether a small list is full, or `elem` too long for it. -/
def needsPromote (l : RedisList) (elem : Bytes) : Bool :=
  match l with
  | small v => v.length ≥ maxListpackEntries || elem.length > maxElementBytes
  | large _ => false

/-- The same elements in the large encoding. -/
def promote (l : RedisList) : RedisList := large l.toVec

/-- The encoding in which `elem` is added. -/
def fit (l : RedisList) (elem : Bytes) : RedisList :=
  if l.needsPromote elem then l.promote else l

/-- Add an element at the head. -/
def pushFront (l : RedisList) (val : Bytes) : RedisList := (l.fit val).map (val :: ·)

/-- Add an element at the tail. -/
def pushBack (l : RedisList) (val : Bytes) : RedisList := (l.fit val).map (· ++ [val])

/-- Take the element at the head. -/
def popFront (l : RedisList) : Option Bytes × RedisList := (l.toVec.head?, l.map List.tail)

/-- Take the element at the tail. -/
def popBack (l : RedisList) : Option Bytes × RedisList := (l.toVec.getLast?, l.map List.dropLast)

/-- Pop with `pop` until `n` elements are out or none is left. -/
def popN (pop : RedisList → Option Bytes × RedisList) : ℕ → RedisList → List Bytes × RedisList
  | 0, l => ([], l)
  | n + 1, l =>
    match pop l with
    | (some v, l') => ((popN pop n l').1.cons v, (popN pop n l').2)
    | (none, l') => ([], l')

/-- Take up to `n` elements from the head. -/
def popFrontN (l : RedisList) (n : ℕ) : List Bytes × RedisList := popN popFront n l

/-- Take up to `n` elements from the tail. -/
def popBackN (l : RedisList) (n : ℕ) : List Bytes × RedisList := popN popBack n l

/-- The element at a position. -/
def get (l : RedisList) (index : ℕ) : Option Bytes := l.toVec[index]?

/-- Overwrite the element at a position. The encoding stays, however long `val` is. -/
def setIndex (l : RedisList) (index : ℕ) (val : Bytes) : Bool × RedisList :=
  if index < l.len then (true, l.map (·.set index val)) else (false, l)

/-- The elements from `start` up to `stop`, without `stop`. -/
def range (l : RedisList) (start stop : ℕ) : List Bytes :=
  let stop := min stop l.len
  if stop ≤ start then [] else (l.toVec.drop start).take (stop - start)

/-- The first position of `val`. -/
def position (l : RedisList) (val : Bytes) : Option ℕ := l.toVec.findIdx? (· = val)

/-- Insert `val` at `offset` from the first `pivot`. The new length, or -1. -/
def insertAt (l : RedisList) (offset : ℕ) (pivot val : Bytes) : ℤ × RedisList :=
  match l.position pivot with
  | none => (-1, l)
  | some pos =>
    let l' := (l.fit val).map (·.insertIdx (pos + offset) val)
    (l'.len, l')

/-- Insert `val` before the first `pivot`. -/
def insertBefore (l : RedisList) (pivot val : Bytes) : ℤ × RedisList := l.insertAt 0 pivot val

/-- Insert `val` after the first `pivot`. -/
def insertAfter (l : RedisList) (pivot val : Bytes) : ℤ × RedisList := l.insertAt 1 pivot val

/-- Drop the first occurrences of `val`, at most `limit`; also their number. -/
def dropVal (val : Bytes) : ℕ → List Bytes → ℕ × List Bytes
  | _, [] => (0, [])
  | 0, items => (0, items)
  | limit + 1, b :: items =>
    if b = val then ((dropVal val limit items).1 + 1, (dropVal val limit items).2)
    else ((dropVal val (limit + 1) items).1, b :: (dropVal val (limit + 1) items).2)

/-- Remove `count` occurrences of `val`, from the head, or from the tail if `count` is
negative, or all of them if it is 0. -/
def lrem (l : RedisList) (count : ℤ) (val : Bytes) : ℕ × RedisList :=
  let items := l.toVec
  if 0 < count then
    let (n, kept) := dropVal val (Text.asUsize count) items
    (n, small kept)
  else if count < 0 then
    let (n, kept) := dropVal val (Text.asUsize (Text.wrap (-count))) items.reverse
    (n, small kept.reverse)
  else
    let (n, kept) := dropVal val items.length items
    (n, small kept)

/-- Keep the elements from `start` to `stop`; negative indices count from the end. -/
def ltrim (l : RedisList) (start stop : ℤ) : RedisList :=
  let len : ℤ := l.len
  let s := Text.asUsize (max (if start < 0 then Text.wrap (len + start) else start) 0)
  let e := Text.asUsize (max (min (if stop < 0 then Text.wrap (len + stop) else stop) (len - 1)) (-1))
  if e < s ∨ len = 0 then small [] else small (l.range s (Text.addUsize e 1))

end RedisList

/-! ## Hashes -/

/-- The fields of a small hash, in order of insertion. -/
abbrev Fields := { v : List (Bytes × Bytes) // (v.map Prod.fst).Nodup }

namespace Fields

/-- The value of a field. -/
def find (v : Fields) (field : Bytes) : Option Bytes :=
  (v.1.find? fun p => p.1 = field).map Prod.snd

/-- Overwrite `field` where it is, or add it at the end. -/
def put (v : Fields) (field value : Bytes) : Fields :=
  if h : field ∈ v.1.map Prod.fst then
    ⟨v.1.map fun p => if p.1 = field then (field, value) else p, by
      have hfst : (v.1.map fun p => if p.1 = field then (field, value) else p).map Prod.fst =
          v.1.map Prod.fst := by
        rw [List.map_map]
        refine List.map_congr_left fun p _ => ?_
        by_cases hp : p.1 = field <;> simp [hp]
      rw [hfst]
      exact v.2⟩
  else
    ⟨v.1 ++ [(field, value)], by
      rw [List.map_append, List.map_singleton]
      exact v.2.append (List.nodup_singleton field) (List.disjoint_singleton.mpr h)⟩

/-- The fields that `keep` admits. -/
def retain (v : Fields) (keep : Bytes → Bool) : Fields :=
  ⟨v.1.filter fun p => keep p.1, v.2.sublist (List.filter_sublist.map _)⟩

end Fields

/-- A hash, in a `Vec` of pairs while it is small and in a `HashMap` afterwards. -/
inductive RedisHash where
  | small (v : Fields)
  | large (m : ExtTreeMap Bytes Bytes compare)

namespace RedisHash

/-- The empty hash is small. -/
def new : RedisHash := small ⟨[], List.nodup_nil⟩

/-- The number of fields. -/
def len : RedisHash → ℕ
  | small v => v.1.length
  | large m => m.size

/-- Whether there is no field. -/
def isEmpty (h : RedisHash) : Bool := h.len = 0

/-- Whether a small hash is full, or the field or the value too long for it. -/
def needsPromote (h : RedisHash) (field value : Bytes) : Bool :=
  match h with
  | small v => v.1.length ≥ maxListpackEntries || field.length > maxElementBytes ||
      value.length > maxElementBytes
  | large _ => false

/-- The same fields in the large encoding. -/
def promote : RedisHash → RedisHash
  | small v => large (v.1.foldl (fun m p => m.insert p.1 p.2) ∅)
  | large m => large m

/-- The value of a field. -/
def get (h : RedisHash) (field : Bytes) : Option Bytes :=
  match h with
  | small v => v.find field
  | large m => m[field]?

/-- Whether a field is there. -/
def contains (h : RedisHash) (field : Bytes) : Bool :=
  match h with
  | small v => field ∈ v.1.map Prod.fst
  | large m => m.contains field

/-- Set a field : 1 if it is new, 0 if it was there. -/
def hset (h : RedisHash) (field value : Bytes) : ℕ × RedisHash :=
  match if h.needsPromote field value then h.promote else h with
  | small v => (if field ∈ v.1.map Prod.fst then 0 else 1, small (v.put field value))
  | large m => (if m.contains field then 0 else 1, large (m.insert field value))

/-- Set a field only if it is missing; whether it was. -/
def hsetnx (h : RedisHash) (field value : Bytes) : Bool × RedisHash :=
  if h.contains field then (false, h) else (true, (h.hset field value).2)

/-- Remove the fields one after the other from a hash table; also how many were there. -/
def removeAll (m : ExtTreeMap Bytes Bytes compare) :
    List Bytes → ℕ × ExtTreeMap Bytes Bytes compare
  | [] => (0, m)
  | f :: fs =>
    ((if m.contains f then 1 else 0) + (removeAll (m.erase f) fs).1, (removeAll (m.erase f) fs).2)

/-- Remove fields; the number of those that were there. -/
def hdel (h : RedisHash) (fields : List Bytes) : ℕ × RedisHash :=
  match h with
  | small v =>
    let kept := v.retain fun f => !fields.contains f
    (v.1.length - kept.1.length, small kept)
  | large m => ((removeAll m fields).1, large (removeAll m fields).2)

/-- The fields with their values, in the order in which the encoding lists them. -/
def allPairs (env : Env) : RedisHash → List (Bytes × Bytes)
  | small v => v.1
  | large m => env.pairOrder m.toList

/-- The fields, as listed. -/
def keys (env : Env) (h : RedisHash) : List Bytes := (h.allPairs env).map Prod.fst

/-- The values, as listed. -/
def values (env : Env) (h : RedisHash) : List Bytes := (h.allPairs env).map Prod.snd

end RedisHash

/-! ## Sets -/

/-- The members of a small set, in order of insertion. -/
abbrev Members := { v : List Bytes // v.Nodup }

/-- `Vec::swap_remove` : the last element takes the place of the removed one. -/
def swapRemove (v : List Bytes) (i : ℕ) : List Bytes :=
  match v.getLast? with
  | none => []
  | some last => (v.set i last).dropLast

theorem swapRemove_perm (a b : List Bytes) (m : Bytes) :
    (swapRemove (a ++ m :: b) a.length).Perm (a ++ b) := by
  rcases List.eq_nil_or_concat b with rfl | ⟨b, last, rfl⟩
  · simp [swapRemove]
  · rw [List.concat_eq_append]
    have hlast : (a ++ m :: (b ++ [last])).getLast? = some last := by
      rw [← List.cons_append, ← List.append_assoc, List.getLast?_concat]
    have hset : (a ++ m :: (b ++ [last])).set a.length last = a ++ last :: b ++ [last] := by
      simp
    simp only [swapRemove, hlast, hset, List.dropLast_concat]
    exact List.Perm.append_left a (List.perm_append_singleton last b).symm

/-- What `swap_remove` leaves is what a removal in place leaves, in another order. -/
theorem swapRemove_perm_eraseIdx {v : List Bytes} {i : ℕ} (hi : i < v.length) :
    (swapRemove v i).Perm (v.eraseIdx i) := by
  have hv : v = v.take i ++ v[i] :: v.drop (i + 1) := by simp
  have hlen : (v.take i).length = i := List.length_take_of_le (Nat.le_of_lt hi)
  have h := swapRemove_perm (v.take i) (v.drop (i + 1)) v[i]
  rw [← hv, hlen] at h
  rwa [List.eraseIdx_eq_take_drop_succ]

/-- A set, in a `Vec` while it is small and in a `HashSet` afterwards. -/
inductive RedisSet where
  | small (v : Members)
  | large (s : ExtTreeSet Bytes compare)

namespace Members

/-- Add a member at the end, if it is not there. -/
def push (v : Members) (m : Bytes) : Members :=
  if h : m ∈ v.1 then v
  else ⟨v.1 ++ [m], v.2.append (List.nodup_singleton m) (List.disjoint_singleton.mpr h)⟩

/-- The members that `keep` admits. -/
def retain (v : Members) (keep : Bytes → Bool) : Members :=
  ⟨v.1.filter keep, v.2.filter _⟩

/-- Remove the member at a valid position. -/
def removeAt (v : Members) (i : ℕ) (hi : i < v.1.length) : Members :=
  ⟨swapRemove v.1 i, (swapRemove_perm_eraseIdx hi).nodup_iff.mpr
    (v.2.sublist (List.eraseIdx_sublist _ _))⟩

end Members

namespace RedisSet

/-- The empty set is small. -/
def new : RedisSet := small ⟨[], List.nodup_nil⟩

/-- The number of members. -/
def len : RedisSet → ℕ
  | small v => v.1.length
  | large s => s.size

/-- Whether there is no member. -/
def isEmpty (s : RedisSet) : Bool := s.len = 0

/-- Whether a small set is full, or `member` too long for it. -/
def needsPromote (s : RedisSet) (member : Bytes) : Bool :=
  match s with
  | small v => v.1.length ≥ maxListpackEntries || member.length > maxElementBytes
  | large _ => false

/-- The same members in the large encoding. -/
def promote : RedisSet → RedisSet
  | small v => large (v.1.foldl (fun s m => s.insert m) ∅)
  | large s => large s

/-- Whether a member is there. -/
def contains (s : RedisSet) (member : Bytes) : Bool :=
  match s with
  | small v => v.1.contains member
  | large s => s.contains member

/-- Add one member; 1 if it is new. -/
def addOne (s : RedisSet) (m : Bytes) : ℕ × RedisSet :=
  match if s.needsPromote m then s.promote else s with
  | small v => (if v.1.contains m then 0 else 1, small (v.push m))
  | large t => (if t.contains m then 0 else 1, large (t.insert m))

/-- Add members; the number of new ones. -/
def sadd (s : RedisSet) : List Bytes → ℕ × RedisSet
  | [] => (0, s)
  | m :: ms => ((s.addOne m).1 + ((s.addOne m).2.sadd ms).1, ((s.addOne m).2.sadd ms).2)

/-- Remove the members one after the other from a hash table; also how many were there. -/
def removeAll (s : ExtTreeSet Bytes compare) : List Bytes → ℕ × ExtTreeSet Bytes compare
  | [] => (0, s)
  | m :: ms =>
    ((if s.contains m then 1 else 0) + (removeAll (s.erase m) ms).1, (removeAll (s.erase m) ms).2)

/-- Remove members; the number of those that were there. -/
def srem (s : RedisSet) (members : List Bytes) : ℕ × RedisSet :=
  match s with
  | small v =>
    let kept := v.retain fun m => !members.contains m
    (v.1.length - kept.1.length, small kept)
  | large t => ((removeAll t members).1, large (removeAll t members).2)

/-- Remove one member; whether it was there. -/
def removeOne (s : RedisSet) (member : Bytes) : Bool × RedisSet :=
  match s with
  | small v =>
    if h : v.1.idxOf member < v.1.length then (true, small (v.removeAt _ h)) else (false, small v)
  | large t => (t.contains member, large (t.erase member))

/-- The members, in the order in which the encoding lists them. -/
def members (env : Env) : RedisSet → List Bytes
  | small v => v.1
  | large s => env.memberOrder s.toList

/-- The members, as a hash table. -/
def toHashset : RedisSet → ExtTreeSet Bytes compare
  | small v => v.1.foldl (fun s m => s.insert m) ∅
  | large s => s

/-- The members where their order does not matter. -/
def items : RedisSet → List Bytes
  | small v => v.1
  | large s => s.toList

/-! ### Set algebra -/

/-- The members of this set or of one of the others. -/
def unionWith (s : RedisSet) (others : List RedisSet) : ExtTreeSet Bytes compare :=
  others.foldl (fun result other => other.items.foldl (fun r m => r.insert m) result)
    s.toHashset

/-- The members of this set and of all others. -/
def intersectWith (s : RedisSet) (others : List RedisSet) : ExtTreeSet Bytes compare :=
  others.foldl (fun result other => result.filter fun m => other.toHashset.contains m) s.toHashset

/-- The members of this set and of no other. -/
def diffWith (s : RedisSet) (others : List RedisSet) : ExtTreeSet Bytes compare :=
  others.foldl (fun result other => other.items.foldl (fun r m => r.erase m) result)
    s.toHashset

/-! ### Random access -/

/-- Up to `count` distinct members, or `-count` draws if it is negative. -/
def randomMembers (env : Env) (s : RedisSet) (count : ℤ) : List Bytes :=
  let members := s.members env
  if members = [] then []
  else if 0 ≤ count then (env.shuffle members).take (min (Text.asUsize count) members.length)
  else (List.range (Text.asUsize (Text.wrap (-count)))).map fun i =>
    members.getD (env.draw i members.length) []

/-- Remove the members one by one. -/
def removeEach (s : RedisSet) : List Bytes → RedisSet
  | [] => s
  | m :: ms => (s.removeOne m).2.removeEach ms

/-- Remove and return `count` random members. -/
def spop (env : Env) (s : RedisSet) (count : ℕ) : List Bytes × RedisSet :=
  let members := s.members env
  if members = [] then ([], s)
  else
    let popped := (env.shuffle members).take (min count members.length)
    (popped, s.removeEach popped)

end RedisSet

end LoonyRedis
