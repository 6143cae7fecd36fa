import LoonyRedis.Health
import LoonyRedis.Membership
import Mathlib.Data.List.Perm.Basic

/-!
# Gossip

A node sends its health table to a peer as one line of text, `addr=state` for each entry, and
the peer merges what it reads : an entry takes the worse of the two states, an address that it
does not know is added, and the counters stay.

`gossip_joins` says that what is read is what was written, so that the peer has the join of the
two tables; that a message that is handled twice has no more effect than once; and that the
order of messages does not matter.
-/

namespace LoonyRedis

open Std

namespace HealthTable

/-! ## The text -/

/-- The addresses with their states, in the order of the tree. A hash map has an order of its
own, which is some permutation of these rows. -/
def rows (t : HealthTable) : List (String × NodeState) := t.toList.map fun e => (e.1, e.2.state)

/-- An entry of the text. -/
def csvPart (row : String × NodeState) : List Char := row.1.toList ++ '=' :: row.2.asStr.toList

/-- The text of the rows. -/
def toCsv (rows : List (String × NodeState)) : String :=
  String.ofList ([','].intercalate (rows.map csvPart))

/-- The two sides of the first `=`, none if there is none. -/
def splitEq (cs : List Char) : Option (List Char × List Char) :=
  match cs.dropWhile (· ≠ '=') with
  | [] => none
  | _ :: rest => some (cs.takeWhile (· ≠ '='), rest)

/-- The state with this text. -/
def readState (cs : List Char) : Option NodeState :=
  if cs = "alive".toList then some .alive
  else if cs = "suspected".toList then some .suspected
  else if cs = "failed".toList then some .failed
  else none

/-- An entry that is read. -/
def readPart (cs : List Char) : Option (String × NodeState) :=
  (splitEq cs).bind fun p =>
    (readState (Text.trim p.2)).map fun s => (String.ofList (Text.trim p.1), s)

/-- The updates of a payload, without the parts that cannot be read. -/
def readUpdates (payload : String) : List (String × NodeState) :=
  (payload.toList.splitOn ',').filterMap readPart

/-- `CLUSTER GOSSIP` on a node with the health table `t`. -/
def clusterGossip (args : List Frame) (t : HealthTable) : Frame × HealthTable :=
  match bulkAsStr args 2 with
  | none => (wrongNumArgs "cluster|gossip", t)
  | some payload => (.ok, t.applyGossip (readUpdates payload))

/-- The table after `CLUSTER GOSSIP` with the payload. -/
def hear (t : HealthTable) (payload : String) : HealthTable :=
  (clusterGossip (["CLUSTER", "GOSSIP", payload].map .bulkStr) t).2

/-- An address that a line of gossip can hold. -/
structure PlainAddr (a : String) : Prop where
  no_comma : ',' ∉ a.toList
  no_equals : '=' ∉ a.toList
  trimmed : Text.trim a.toList = a.toList

/-! ## What is read is what was written -/

section Text

variable {rows : List (String × NodeState)} {a : String} {s : NodeState}

theorem splitEq_append {cs rest : List Char} (h : '=' ∉ cs) :
    splitEq (cs ++ '=' :: rest) = some (cs, rest) := by
  have hne : ∀ c ∈ cs, decide (c ≠ '=') = true := fun c hc =>
    decide_eq_true fun heq => h (heq ▸ hc)
  have hdrop : (cs ++ '=' :: rest).dropWhile (· ≠ '=') = '=' :: rest := by
    rw [List.dropWhile_append_of_pos hne, List.dropWhile_cons_of_neg (by decide)]
  have htake : (cs ++ '=' :: rest).takeWhile (· ≠ '=') = cs := by
    rw [List.takeWhile_append_of_pos hne, List.takeWhile_cons_of_neg (by decide), List.append_nil]
  rw [splitEq, hdrop, htake]

theorem readState_asStr (s : NodeState) : readState (Text.trim s.asStr.toList) = some s := by
  cases s <;> decide

theorem comma_notMem_asStr (s : NodeState) : ',' ∉ s.asStr.toList := by
  cases s <;> decide

theorem readPart_csvPart (h : PlainAddr a) : readPart (csvPart (a, s)) = some (a, s) := by
  rw [readPart, csvPart, splitEq_append h.no_equals, Option.bind_some, readState_asStr,
    Option.map_some, h.trimmed, String.ofList_toList]

theorem readUpdates_toCsv (h : ∀ row ∈ rows, PlainAddr row.1) :
    readUpdates (toCsv rows) = rows := by
  by_cases hnil : rows = []
  · subst hnil
    decide
  · have hcomma : ∀ cs ∈ rows.map csvPart, ',' ∉ cs := by
      intro cs hcs
      obtain ⟨row, hrow, rfl⟩ := List.mem_map.mp hcs
      rw [csvPart, List.mem_append, List.mem_cons]
      rintro (hmem | heq | hmem)
      · exact (h row hrow).no_comma hmem
      · exact absurd heq (by decide)
      · exact comma_notMem_asStr row.2 hmem
    have hread : ∀ row ∈ rows, (readPart ∘ csvPart) row = some row := fun row hrow =>
      readPart_csvPart (h row hrow)
    rw [readUpdates, toCsv, String.toList_ofList,
      List.splitOn_intercalate ',' hcomma (by simpa using hnil), List.filterMap_map,
      List.filterMap_congr hread]
    exact List.filterMap_some

theorem hear_eq (t : HealthTable) (payload : String) :
    t.hear payload = t.applyGossip (readUpdates payload) := by
  have hpayload : bulkAsStr (["CLUSTER", "GOSSIP", payload].map .bulkStr) 2 = some payload :=
    bulkAsStr_of_getElem? rfl
  rw [hear, clusterGossip, hpayload]

/-- The reply is the one of the node, whose health table the model of it leaves out. -/
theorem clusterGossip_reply (args : List Frame) (t : HealthTable) (rpc : Rpc) (env : Env)
    (me : String) (cfg : ClusterConfig) (health : List (String × NodeState)) (w : World)
    (hsub : (bulkAsStr args 1).map Text.toUppercase = some "GOSSIP") :
    cmdCluster rpc env me cfg args health w = ((clusterGossip args t).1, w) := by
  simp only [cmdCluster, hsub, Option.getD_some, clusterGossip]
  cases bulkAsStr args 2 <;> rfl

end Text

/-! ## Tables with their entries -/

section Entries

variable {t u : HealthTable} {a : String} {h : NodeHealth}

/-- An entry, from whether there is one and what it is or would be. -/
theorem getElem?_congr (hmem : a ∈ t ↔ a ∈ u) (hentry : t.entry a = u.entry a) :
    t[a]? = u[a]? := by
  by_cases ha : a ∈ t
  · rw [getElem?_of_mem ha, getElem?_of_mem (hmem.mp ha), hentry]
  · rw [ExtTreeMap.getElem?_eq_none ha, ExtTreeMap.getElem?_eq_none fun hu => ha (hmem.mpr hu)]

theorem ext_entry (h : ∀ a, (a ∈ t ↔ a ∈ u) ∧ t.entry a = u.entry a) : t = u :=
  ExtTreeMap.ext_getElem? fun a => getElem?_congr (h a).1 (h a).2

theorem mem_rows {s : NodeState} : (a, s) ∈ t.rows ↔ ∃ h, t[a]? = some h ∧ h.state = s := by
  rw [rows, List.mem_map]
  constructor
  · rintro ⟨e, he, heq⟩
    obtain ⟨rfl, rfl⟩ := Prod.mk.inj heq
    exact ⟨e.2, ExtTreeMap.mem_toList_iff_getElem?_eq_some.mp he, rfl⟩
  · rintro ⟨h, hh, rfl⟩
    exact ⟨(a, h), ExtTreeMap.mem_toList_iff_getElem?_eq_some.mpr hh, rfl⟩

theorem nodup_rows : t.rows.Nodup := by
  have hkeys : (t.rows.map Prod.fst).Nodup := by
    rw [rows, List.map_map]
    exact FinMap.nodup_keys_toList
  exact hkeys.of_map _

/-- The rows have one state for each address of the table. -/
theorem heard_rows {l : List (String × NodeState)} (hl : l.Perm t.rows) (a : String) :
    heard a l = (t[a]?.map NodeHealth.state).toList := by
  have hmem : ∀ row, row ∈ l.filter (fun u => u.1 = a) ↔
      row.1 = a ∧ ∃ h, t[a]? = some h ∧ h.state = row.2 := by
    intro row
    rw [List.mem_filter, hl.mem_iff, decide_eq_true_eq, and_comm]
    refine and_congr_right fun heq => ?_
    rw [← heq]
    exact mem_rows
  cases ha : t[a]? with
  | none =>
    have hnil : l.filter (fun u => u.1 = a) = [] := by
      refine List.eq_nil_iff_forall_not_mem.mpr fun row hrow => ?_
      obtain ⟨-, h, hh, -⟩ := (hmem row).mp hrow
      rw [ha] at hh
      cases hh
    rw [heard, hnil]
    rfl
  | some h =>
    have hone : l.filter (fun u => u.1 = a) = [(a, h.state)] := by
      refine List.perm_singleton.mp ((List.perm_ext_iff_of_nodup
        ((hl.nodup_iff.mpr nodup_rows).filter _) (List.nodup_singleton _)).mpr fun row => ?_)
      rw [hmem, List.mem_singleton, ha]
      constructor
      · rintro ⟨rfl, h', hh', heq⟩
        rw [Option.some.inj hh', heq]
      · rintro rfl
        exact ⟨rfl, h, rfl, rfl⟩
    rw [heard, hone]
    rfl

theorem mem_map_fst {l : List (String × NodeState)} (hl : l.Perm t.rows) :
    a ∈ l.map Prod.fst ↔ a ∈ t := by
  rw [(hl.map Prod.fst).mem_iff, rows, List.map_map]
  change a ∈ t.toList.map Prod.fst ↔ a ∈ t
  rw [ExtTreeMap.map_fst_toList_eq_keys, ExtTreeMap.mem_keys]

end Entries

/-! ## The merge -/

section Merge

variable {t A B : HealthTable} {l us vs : List (String × NodeState)} {a : String} {h : NodeHealth}

theorem applyGossip_append (t : HealthTable) (us vs : List (String × NodeState)) :
    t.applyGossip (us ++ vs) = (t.applyGossip us).applyGossip vs :=
  List.foldl_append

/-- The order of the updates does not matter. -/
theorem applyGossip_perm (hperm : us.Perm vs) (t : HealthTable) :
    t.applyGossip us = t.applyGossip vs := by
  refine ext_entry fun a => ⟨?_, ?_⟩
  · rw [mem_applyGossip, mem_applyGossip, (hperm.map Prod.fst).mem_iff]
  · have hheard : (heard a us).Perm (heard a vs) := (hperm.filter _).map _
    rw [entry_applyGossip, entry_applyGossip,
      hheard.foldl_eq' (fun x _ y _ z => max_right_comm z x y)]

theorem foldl_max_foldl_max (l : List NodeState) (s : NodeState) :
    l.foldl max (l.foldl max s) = l.foldl max s := by
  rw [List.foldl_max, List.foldl_max]
  cases l.max? with
  | none => exact max_self _
  | some m => exact max_eq_left (le_max_right s m)

theorem applyGossip_twice (us : List (String × NodeState)) (t : HealthTable) :
    (t.applyGossip us).applyGossip us = t.applyGossip us := by
  refine ext_entry fun a => ⟨?_, ?_⟩
  · rw [mem_applyGossip, mem_applyGossip]
    tauto
  · rw [entry_applyGossip, entry_applyGossip, foldl_max_foldl_max]

/-- An address of the table that was sent. -/
theorem getElem?_applyGossip_of_mem (hl : l.Perm A.rows) (ha : A[a]? = some h) (B : HealthTable) :
    (B.applyGossip l)[a]? = some ⟨max h.state (B.entry a).state, (B.entry a).missed⟩ := by
  have hmem : a ∈ B.applyGossip l := by
    refine (mem_applyGossip l B).mpr (.inr ((mem_map_fst hl).mpr ?_))
    rw [ExtTreeMap.mem_iff_isSome_getElem?, ha]
    rfl
  rw [getElem?_of_mem hmem, entry_applyGossip, heard_rows hl, ha, max_comm]
  rfl

/-- Any other address. -/
theorem getElem?_applyGossip_of_none (hl : l.Perm A.rows) (ha : A[a]? = none) (B : HealthTable) :
    (B.applyGossip l)[a]? = B[a]? := by
  have hnot : a ∉ A := by
    rw [ExtTreeMap.mem_iff_isSome_getElem?, ha]
    exact Bool.false_ne_true
  refine getElem?_congr ?_ ?_
  · rw [mem_applyGossip, mem_map_fst hl, or_iff_left hnot]
  · rw [entry_applyGossip, heard_rows hl, ha]
    rfl

/-- Messages that are handled one after the other. -/
theorem foldl_hear (payloads : List String) (B : HealthTable) :
    payloads.foldl hear B = B.applyGossip (payloads.flatMap readUpdates) := by
  induction payloads generalizing B with
  | nil => rfl
  | cons p payloads ih =>
    rw [List.foldl_cons, ih, hear_eq, List.flatMap_cons, applyGossip_append]

/-- A node that hears of the table `A` has the worse of the two states for the addresses of `A`,
and everything else as before. Hearing it again changes nothing, and any messages may be handled
in any order. -/
theorem gossip_joins (hA : ∀ a ∈ A, PlainAddr a) (hl : l.Perm A.rows) (B : HealthTable) :
    (∀ (a : String) (h : NodeHealth), A[a]? = some h → (B.hear (toCsv l))[a]? =
      some ⟨max h.state (B.entry a).state, (B.entry a).missed⟩) ∧
    (∀ a : String, A[a]? = none → (B.hear (toCsv l))[a]? = B[a]?) ∧
    (B.hear (toCsv l)).hear (toCsv l) = B.hear (toCsv l) ∧
    ∀ payloads payloads' : List String, payloads.Perm payloads' →
      payloads.foldl hear B = payloads'.foldl hear B := by
  have hread : readUpdates (toCsv l) = l := by
    refine readUpdates_toCsv fun row hrow => hA row.1 ?_
    exact (mem_map_fst hl).mp (List.mem_map_of_mem hrow)
  refine ⟨fun a h ha => ?_, fun a ha => ?_, ?_, fun payloads payloads' hperm => ?_⟩
  · rw [hear_eq, hread]
    exact getElem?_applyGossip_of_mem hl ha B
  · rw [hear_eq, hread]
    exact getElem?_applyGossip_of_none hl ha B
  · rw [hear_eq, hear_eq, applyGossip_twice]
  · rw [foldl_hear, foldl_hear, applyGossip_perm (hperm.flatMap_right readUpdates)]

end Merge

/-! ## Two peers -/

section Two

/-- The table of a node that knows of the failure of `a:1`. -/
def knowing : HealthTable := (new ["a:1", "b:1"]).applyGossip [("a:1", .failed)]

/-- The table of a node that suspects it. -/
def suspecting : HealthTable := (recordMiss (new ["a:1"]) "a:1").1

theorem plainAddr_knowing : ∀ a ∈ knowing, PlainAddr a := by
  intro a ha
  have hkeys : knowing.keys = ["a:1", "b:1"] := by decide +kernel
  rw [← ExtTreeMap.mem_keys, hkeys] at ha
  have hall : ∀ a ∈ ["a:1", "b:1"], ',' ∉ a.toList ∧ '=' ∉ a.toList ∧
      Text.trim a.toList = a.toList := by
    decide
  obtain ⟨hcomma, hequals, htrim⟩ := hall a ha
  exact ⟨hcomma, hequals, htrim⟩

/-- A node that suspects `a:1` hears that it has failed, and of `b:1`. -/
theorem hear_worse :
    (suspecting.hear (toCsv knowing.rows))["a:1"]? = some ⟨.failed, 1⟩ ∧
      (suspecting.hear (toCsv knowing.rows))["b:1"]? = some ⟨.alive, 0⟩ := by
  obtain ⟨hjoin, -⟩ := gossip_joins plainAddr_knowing (List.Perm.refl _) suspecting
  have ha : knowing["a:1"]? = some ⟨.failed, 0⟩ := by decide +kernel
  have hb : knowing["b:1"]? = some ⟨.alive, 0⟩ := by decide +kernel
  refine ⟨(hjoin _ _ ha).trans ?_, (hjoin _ _ hb).trans ?_⟩
  · decide +kernel
  · decide +kernel

end Two

end HealthTable

end LoonyRedis
