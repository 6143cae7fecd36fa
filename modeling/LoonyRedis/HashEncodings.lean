import LoonyRedis.Contents
import Mathlib.Data.Finmap

/-!
# The encodings of a hash are transparent

The source keeps a small hash as a `Vec` of pairs, where the type alone does not rule out
that a field is stored twice, and a large one as a `HashMap`. `RawHash` is a hash of this
form, and `HashCode` has the operations of the source on it : searches that end at the
first match, an assignment through the match, a filter, and the loops over a `HashMap`.

`HashMethod.exec` is an operation of the source, `HashMethod.apply` the operation of
`RedisHash` that the commands use, and `HashMethod.onMap` what it should do to a finite map.
On a hash whose fields are distinct the first is the second (`HashMethod.exec_raw`), which
leaves the fields distinct, and the second returns what the third does, a listing up to its
order (`HashMethod.apply_onMap`).
-/

namespace LoonyRedis

open Std

/-! ## The code for each encoding -/

/-- A hash as the source stores it. -/
inductive RawHash where
  | small (v : List (Bytes × Bytes))
  | large (m : ExtTreeMap Bytes Bytes compare)

/-- The pairs that are stored. -/
def RawHash.pairs : RawHash → List (Bytes × Bytes)
  | small v => v
  | large m => m.toList

namespace HashCode

/-- The empty hash is small. -/
def new : RawHash := .small []

/-- The number of pairs. -/
def len : RawHash → ℕ
  | .small v => v.length
  | .large m => m.size

/-- Whether a small hash is full, or the field or the value too long for it. -/
def needsPromote (h : RawHash) (field value : Bytes) : Bool :=
  match h with
  | .small v => v.length ≥ maxListpackEntries || field.length > maxElementBytes ||
      value.length > maxElementBytes
  | .large _ => false

/-- Insert the pairs into a table, a later one over an earlier one. -/
def promote : RawHash → RawHash
  | .small v => .large (v.foldl (fun m p => m.insert p.1 p.2) ∅)
  | .large m => .large m

/-- `iter_mut().find(..)` and an assignment to the value it finds, if it finds one. -/
def assignFirst (field value : Bytes) : List (Bytes × Bytes) → Option (List (Bytes × Bytes))
  | [] => none
  | p :: v =>
    if p.1 = field then some ((p.1, value) :: v) else (assignFirst field value v).map (p :: ·)

/-- Set a field, the first pair with its name in the small encoding. -/
def hset (h : RawHash) (field value : Bytes) : ℕ × RawHash :=
  match if needsPromote h field value then promote h else h with
  | .small v =>
    match assignFirst field value v with
    | some assigned => (0, .small assigned)
    | none => (1, .small (v ++ [(field, value)]))
  | .large m =>
    let isNew := !m.contains field
    (if isNew then 1 else 0, .large (m.insert field value))

/-- Whether a pair has the field. -/
def contains (h : RawHash) (field : Bytes) : Bool :=
  match h with
  | .small v => v.any fun p => p.1 = field
  | .large m => m.contains field

/-- Set a field that is missing. -/
def hsetnx (h : RawHash) (field value : Bytes) : Bool × RawHash :=
  if contains h field then (false, h) else (true, (hset h field value).2)

/-- The value of the first pair with the field. -/
def get (h : RawHash) (field : Bytes) : Option Bytes :=
  match h with
  | .small v => (v.find? fun p => p.1 = field).map Prod.snd
  | .large m => m[field]?

/-- Drop all pairs with the fields, and count them. -/
def hdel (h : RawHash) (fields : List Bytes) : ℕ × RawHash :=
  match h with
  | .small v =>
    let kept := v.filter fun p => !fields.contains p.1
    (v.length - kept.length, .small kept)
  | .large m => ((RedisHash.removeAll m fields).1, .large (RedisHash.removeAll m fields).2)

/-- The pairs, as the encoding lists them. -/
def allPairs (env : Env) : RawHash → List (Bytes × Bytes)
  | .small v => v
  | .large m => env.pairOrder m.toList

/-- The fields, as listed. -/
def keys (env : Env) (h : RawHash) : List Bytes := (allPairs env h).map Prod.fst

/-- The values, as listed. -/
def values (env : Env) (h : RawHash) : List Bytes := (allPairs env h).map Prod.snd

end HashCode

/-! ## Operations and what they return -/

/-- An operation; a listing may come in any order each time. -/
inductive HashMethod where
  | hset (field value : Bytes)
  | hsetnx (field value : Bytes)
  | hdel (fields : List Bytes)
  | get (field : Bytes)
  | contains (field : Bytes)
  | len
  | keys (env : Env)
  | values (env : Env)
  | allPairs (env : Env)

/-- What an operation returns, with the listings as an `L` : lists in the code, multisets
where their order does not matter. -/
inductive HashReturn (L : Type → Type) where
  | count (n : ℕ)
  | flag (b : Bool)
  | value (o : Option Bytes)
  | listing (l : L Bytes)
  | pairs (l : L (Bytes × Bytes))

/-- The same without the order of the listings. -/
def HashReturn.unordered : HashReturn List → HashReturn Multiset
  | count n => count n
  | flag b => flag b
  | value o => value o
  | listing l => listing l
  | pairs l => pairs l

/-- What a hash stands for. -/
abbrev FieldMap := Finmap fun _ : Bytes => Bytes

namespace HashMethod

/-- The operation as the source computes it. -/
def exec (h : RawHash) : HashMethod → HashReturn List × RawHash
  | hset field value => Prod.map .count id (HashCode.hset h field value)
  | hsetnx field value => Prod.map .flag id (HashCode.hsetnx h field value)
  | hdel fields => Prod.map .count id (HashCode.hdel h fields)
  | get field => (.value (HashCode.get h field), h)
  | contains field => (.flag (HashCode.contains h field), h)
  | len => (.count (HashCode.len h), h)
  | keys env => (.listing (HashCode.keys env h), h)
  | values env => (.listing (HashCode.values env h), h)
  | allPairs env => (.pairs (HashCode.allPairs env h), h)

/-- The operation of the model that the commands use. -/
def apply (h : RedisHash) : HashMethod → HashReturn List × RedisHash
  | hset field value => Prod.map .count id (h.hset field value)
  | hsetnx field value => Prod.map .flag id (h.hsetnx field value)
  | hdel fields => Prod.map .count id (h.hdel fields)
  | get field => (.value (h.get field), h)
  | contains field => (.flag (h.contains field), h)
  | len => (.count h.len, h)
  | keys env => (.listing (h.keys env), h)
  | values env => (.listing (h.values env), h)
  | allPairs env => (.pairs (h.allPairs env), h)

/-- The operation on a finite map. -/
def onMap (m : FieldMap) : HashMethod → HashReturn Multiset × FieldMap
  | hset field value => (.count (if field ∈ m then 0 else 1), m.insert field value)
  | hsetnx field value => if field ∈ m then (.flag false, m) else (.flag true, m.insert field value)
  | hdel fields =>
    (.count (m.keys ∩ fields.toFinset).card, fields.foldl (fun m field => m.erase field) m)
  | get field => (.value (m.lookup field), m)
  | contains field => (.flag (field ∈ m), m)
  | len => (.count m.keys.card, m)
  | keys _ => (.listing m.keys.val, m)
  | values _ => (.listing (m.entries.map Sigma.snd), m)
  | allPairs _ => (.pairs (m.entries.map fun e => (e.1, e.2)), m)

end HashMethod

/-! ## Each operation is the one of the model -/

/-- The hash of the model as the source stores it. -/
def RedisHash.raw : RedisHash → RawHash
  | small v => .small v.1
  | large m => .large m

namespace HashCode

variable {h : RedisHash} {field value : Bytes}

/-- The test for a promotion reads the encoding only. -/
theorem needsPromote_raw : needsPromote h.raw field value = h.needsPromote field value := by
  cases h <;> rfl

/-- `promote` on the raw encoding is `promote` with its invariant. -/
theorem promote_raw : promote h.raw = h.promote.raw := by
  cases h <;> rfl

/-- The first pair of a field is the only one, so an assignment to it is one to all. -/
theorem assignFirst_eq : ∀ {v : List (Bytes × Bytes)}, (v.map Prod.fst).Nodup →
    assignFirst field value v = if field ∈ v.map Prod.fst then
      some (v.map fun p => if p.1 = field then (field, value) else p) else none
  | [], _ => rfl
  | p :: v, hnd => by
    rw [List.map_cons, List.nodup_cons] at hnd
    unfold assignFirst
    by_cases hp : p.1 = field
    · have hrest : (v.map fun q => if q.1 = field then (field, value) else q) = v := by
        conv_rhs => rw [← List.map_id v]
        refine List.map_congr_left fun q hq => if_neg fun hqf => hnd.1 ?_
        rw [hp, ← hqf]
        exact List.mem_map_of_mem hq
      simp [hp, hrest]
    · rw [if_neg hp, assignFirst_eq hnd.2]
      have hne : field ≠ p.1 := Ne.symm hp
      by_cases hv : field ∈ v.map Prod.fst <;> simp [hv, hp, hne]

/-- `hset` on the raw encoding is `hset` with its invariant. -/
theorem hset_raw : hset h.raw field value = Prod.map id RedisHash.raw (h.hset field value) := by
  have hfit : (if needsPromote h.raw field value then promote h.raw else h.raw) =
      (if h.needsPromote field value then h.promote else h).raw := by
    rw [needsPromote_raw, promote_raw]
    split <;> rfl
  unfold hset RedisHash.hset
  rw [hfit]
  cases if h.needsPromote field value then h.promote else h with
  | small v =>
    simp only [RedisHash.raw, assignFirst_eq v.2]
    by_cases hv : field ∈ v.1.map Prod.fst
    · simp only [hv, ↓reduceIte, Fields.put, ↓reduceDIte, Prod.map_apply, id]
      rfl
    · simp only [hv, ↓reduceIte, Fields.put, ↓reduceDIte, Prod.map_apply, id]
      rfl
  | large m => cases hm : m.contains field <;> simp [RedisHash.raw, hm]

theorem contains_raw : contains h.raw field = h.contains field := by
  cases h with
  | small v =>
    rw [Bool.eq_iff_iff]
    simp [contains, RedisHash.contains, RedisHash.raw]
  | large m => rfl

/-- `hsetnx` on the raw encoding is `hsetnx` with its invariant. -/
theorem hsetnx_raw :
    hsetnx h.raw field value = Prod.map id RedisHash.raw (h.hsetnx field value) := by
  unfold hsetnx RedisHash.hsetnx
  rw [contains_raw, hset_raw]
  split <;> rfl

theorem get_raw : get h.raw field = h.get field := by
  cases h <;> rfl

/-- `hdel` on the raw encoding is `hdel` with its invariant. -/
theorem hdel_raw (fields : List Bytes) :
    hdel h.raw fields = Prod.map id RedisHash.raw (h.hdel fields) := by
  cases h <;> rfl

theorem len_raw : len h.raw = h.len := by
  cases h <;> rfl

theorem allPairs_raw (env : Env) : allPairs env h.raw = h.allPairs env := by
  cases h <;> rfl

theorem pairs_raw : h.raw.pairs = h.allPairs (.plain 0) := by
  cases h <;> rfl

end HashCode

/-- On a hash of the model each operation of the source is the one of the model. -/
theorem HashMethod.exec_raw (h : RedisHash) (op : HashMethod) :
    op.exec h.raw = Prod.map id RedisHash.raw (op.apply h) := by
  cases op with
  | hset field value => rw [exec, HashCode.hset_raw, apply]; rfl
  | hsetnx field value => rw [exec, HashCode.hsetnx_raw, apply]; rfl
  | hdel fields => rw [exec, HashCode.hdel_raw, apply]; rfl
  | get field => rw [exec, HashCode.get_raw, apply]; rfl
  | contains field => rw [exec, HashCode.contains_raw, apply]; rfl
  | len => rw [exec, HashCode.len_raw, apply]; rfl
  | keys env => rw [exec, HashCode.keys, HashCode.allPairs_raw, apply]; rfl
  | values env => rw [exec, HashCode.values, HashCode.allPairs_raw, apply]; rfl
  | allPairs env => rw [exec, HashCode.allPairs_raw, apply]; rfl

/-! ## What the operations do to the map -/

/-- The hash stores the map. -/
def RedisHash.Holds (h : RedisHash) (m : FieldMap) : Prop :=
  ∀ field, m.lookup field = h.get field

namespace RedisHash.Holds

variable {h : RedisHash} {m : FieldMap}

/-- The map has a field if and only if the hash contains it. -/
theorem mem_iff (hm : h.Holds m) {field : Bytes} : field ∈ m ↔ h.contains field = true := by
  rw [← Finmap.lookup_isSome, hm, contains_eq]

/-- `hset` inserts the field into the map. -/
theorem insert (hm : h.Holds m) (field value : Bytes) :
    (h.hset field value).2.Holds (m.insert field value) := by
  intro f
  rw [get_hset]
  split
  · next heq => rw [heq, Finmap.lookup_insert]
  · next hne => rw [Finmap.lookup_insert_of_ne _ (Ne.symm hne), hm]

/-- The pairs in any order are the entries of the map. -/
theorem allPairs_eq (hm : h.Holds m) (env : Env) :
    (h.allPairs env : Multiset (Bytes × Bytes)) = m.entries.map fun e => (e.1, e.2) := by
  have hcode : (h.allPairs env : Multiset (Bytes × Bytes)).Nodup :=
    Multiset.coe_nodup.mpr ((nodup_allPairs env h).of_map Prod.fst)
  have hmap : (m.entries.map fun e => (e.1, e.2)).Nodup := by
    refine m.nodup_entries.map fun a b hab => ?_
    simp only [Prod.mk.injEq] at hab
    exact Sigma.ext hab.1 (heq_of_eq hab.2)
  refine (Multiset.Nodup.ext hcode hmap).mpr ?_
  rintro ⟨field, value⟩
  rw [Multiset.mem_coe, mem_allPairs, ← hm, ← Option.mem_def, Finmap.mem_lookup_iff,
    Multiset.mem_map]
  constructor
  · intro he
    exact ⟨_, he, rfl⟩
  · rintro ⟨e, he, heq⟩
    rw [Prod.mk.injEq] at heq
    obtain ⟨rfl, rfl⟩ := heq
    exact he

/-- `HKEYS` lists the fields of the map, each once. -/
theorem keys_eq (hm : h.Holds m) (env : Env) :
    (h.keys env : Multiset Bytes) = m.keys.val := by
  rw [RedisHash.keys, ← Multiset.map_coe, hm.allPairs_eq, Multiset.map_map]
  rfl

/-- `HVALS` lists the values of the map, one for each field. -/
theorem values_eq (hm : h.Holds m) (env : Env) :
    (h.values env : Multiset Bytes) = m.entries.map Sigma.snd := by
  rw [RedisHash.values, ← Multiset.map_coe, hm.allPairs_eq, Multiset.map_map]
  rfl

/-- `HLEN` counts the fields of the map. -/
theorem len_eq (hm : h.Holds m) : h.len = m.keys.card := by
  rw [← length_allPairs (.plain 0), Finset.card_def, ← hm.keys_eq (.plain 0), Multiset.coe_card,
    RedisHash.keys, List.length_map]

end RedisHash.Holds

/-- What is left of a map after its fields are erased one by one. -/
theorem FieldMap.lookup_foldl_erase {f : Bytes} : ∀ (fields : List Bytes) (m : FieldMap),
    (fields.foldl (fun m field => m.erase field) m).lookup f =
      if f ∈ fields then none else m.lookup f
  | [], m => by simp
  | g :: fields, m => by
    rw [List.foldl_cons, lookup_foldl_erase fields]
    by_cases hg : f = g
    · subst hg
      simp
    · simp [hg, Finmap.lookup_erase_ne]

/-- Erasing fields one by one takes all of them out. -/
theorem FieldMap.keys_foldl_erase (fields : List Bytes) (m : FieldMap) :
    (fields.foldl (fun m field => m.erase field) m).keys = m.keys \ fields.toFinset := by
  ext f
  rw [Finmap.mem_keys, ← Finmap.lookup_isSome, lookup_foldl_erase, Finset.mem_sdiff,
    Finmap.mem_keys, ← Finmap.lookup_isSome, List.mem_toFinset]
  split
  · next hf => simp [hf]
  · next hf => simp [hf]

namespace RedisHash.Holds

variable {h : RedisHash} {m : FieldMap}

/-- `hdel` erases its fields from the map. -/
theorem erase (hm : h.Holds m) (fields : List Bytes) :
    (h.hdel fields).2.Holds (fields.foldl (fun m field => m.erase field) m) := by
  intro f
  rw [FieldMap.lookup_foldl_erase, get_hdel, hm]

/-- Repeated and missing fields do not count as removed. -/
theorem hdel_count (hm : h.Holds m) (fields : List Bytes) :
    (h.hdel fields).1 = (m.keys ∩ fields.toFinset).card := by
  have hsum := hdel_fst_add h fields
  have hsplit := Finset.card_inter_add_card_sdiff m.keys fields.toFinset
  rw [hm.len_eq, (hm.erase fields).len_eq, FieldMap.keys_foldl_erase] at hsum
  omega

end RedisHash.Holds

namespace HashMethod

/-- What an operation returns, and what it makes of the map. -/
theorem apply_onMap {h : RedisHash} {m : FieldMap} (hm : h.Holds m) (op : HashMethod) :
    (op.apply h).1.unordered = (op.onMap m).1 ∧ (op.apply h).2.Holds (op.onMap m).2 := by
  cases op with
  | hset field value =>
    refine ⟨congrArg HashReturn.count ?_, hm.insert field value⟩
    simp only [hm.mem_iff, RedisHash.contains_eq]
    exact RedisHash.hset_fst h field value
  | hsetnx field value =>
    simp only [apply, onMap, RedisHash.hsetnx, hm.mem_iff]
    split
    · exact ⟨rfl, hm⟩
    · exact ⟨rfl, hm.insert field value⟩
  | hdel fields => exact ⟨congrArg HashReturn.count (hm.hdel_count fields), hm.erase fields⟩
  | get field => exact ⟨congrArg HashReturn.value (hm field).symm, hm⟩
  | contains field =>
    refine ⟨congrArg HashReturn.flag ?_, hm⟩
    simp only [hm.mem_iff, Bool.decide_eq_true]
  | len => exact ⟨congrArg HashReturn.count hm.len_eq, hm⟩
  | keys env => exact ⟨congrArg HashReturn.listing (hm.keys_eq env), hm⟩
  | values env => exact ⟨congrArg HashReturn.listing (hm.values_eq env), hm⟩
  | allPairs env => exact ⟨congrArg HashReturn.pairs (hm.allPairs_eq env), hm⟩

/-! ## Runs -/

/-- The operations one after the other, with what each returns. -/
def run (h : RawHash) : List HashMethod → List (HashReturn List) × RawHash
  | [] => ([], h)
  | op :: ops =>
    let p := op.exec h
    (p.1 :: (run p.2 ops).1, (run p.2 ops).2)

/-- The same on a finite map. -/
def runOnMap (m : FieldMap) : List HashMethod → List (HashReturn Multiset) × FieldMap
  | [] => ([], m)
  | op :: ops =>
    let p := op.onMap m
    (p.1 :: (runOnMap p.2 ops).1, (runOnMap p.2 ops).2)

/-- A run on the raw encoding answers as the run on the map. -/
theorem run_raw : ∀ (ops : List HashMethod) {h : RedisHash} {m : FieldMap}, h.Holds m →
    ∃ h' : RedisHash, (run h.raw ops).2 = h'.raw ∧ h'.Holds (runOnMap m ops).2 ∧
      (run h.raw ops).1.map HashReturn.unordered = (runOnMap m ops).1
  | [], h, _, hm => ⟨h, rfl, hm, rfl⟩
  | op :: ops, h, m, hm => by
    obtain ⟨hret, hnext⟩ := apply_onMap hm op
    obtain ⟨h', hstate, hholds, hrets⟩ := run_raw ops hnext
    have hexec := exec_raw h op
    refine ⟨h', ?_, hholds, ?_⟩
    · simp only [run, hexec, Prod.map_snd]
      exact hstate
    · simp only [run, hexec, Prod.map_fst, Prod.map_snd, List.map_cons, id, hret, hrets, runOnMap]

/-- A hash that starts empty returns from any operations what a finite map would, a listing
up to its order, and stores what the map has after them, each field once. To promote it
then would neither lose nor change a pair. -/
theorem encodings_hold_map (ops : List HashMethod) :
    (run HashCode.new ops).1.map HashReturn.unordered = (runOnMap ∅ ops).1 ∧
      ((run HashCode.new ops).2.pairs.map Prod.fst).Nodup ∧
      (HashCode.promote (run HashCode.new ops).2).pairs.Perm (run HashCode.new ops).2.pairs ∧
      ∀ field value, (field, value) ∈ (run HashCode.new ops).2.pairs ↔
        (runOnMap ∅ ops).2.lookup field = some value := by
  have hnew : RedisHash.new.Holds ∅ := fun _ => rfl
  obtain ⟨h, hstate, hholds, hrets⟩ := run_raw ops hnew
  have hnodup (h : RedisHash) : (h.raw.pairs.map Prod.fst).Nodup :=
    HashCode.pairs_raw ▸ RedisHash.nodup_allPairs (.plain 0) h
  have hmem (h : RedisHash) (field value : Bytes) :
      (field, value) ∈ h.raw.pairs ↔ h.get field = some value :=
    HashCode.pairs_raw ▸ RedisHash.mem_allPairs
  change (run HashCode.new ops).2 = h.raw at hstate
  rw [hstate]
  refine ⟨hrets, hnodup h, ?_, fun field value => ?_⟩
  · rw [HashCode.promote_raw]
    refine (List.perm_ext_iff_of_nodup (hnodup _).of_map (hnodup h).of_map).mpr ?_
    rintro ⟨field, value⟩
    rw [hmem, hmem, RedisHash.get_promote]
  · rw [hmem, hholds]

end HashMethod

end LoonyRedis
