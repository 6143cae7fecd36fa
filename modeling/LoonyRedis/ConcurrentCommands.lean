import LoonyRedis.KeyAccess
import LoonyRedis.Lib.Serial

/-!
# Commands of two clients at once

The connections are served in parallel, and the map of the store is locked for one access at a
time. So a command that makes several accesses is no single step : `SETNX` asks whether the key
exists and then sets it, `LMOVE` pops from one list and then pushes to another, `MSET` sets one
key after the other.

Here these commands are programs that access one key at a time, in the order of the source.
`Request.run_steps` says that such a program alone does what the command does. Of two programs
that interleave, replies and store are those of one command after the other if each access of one
commutes with those of the other that come after it (`commands_serialise`).
-/

namespace LoonyRedis

open Std Store Serial

/-! ## Accesses -/

/-- A handler, as accesses to the map of the store and a reply. -/
abbrev Steps := Prog String (Option Entry) Frame

namespace Steps

variable {α β : Type}

/-- `Store::get`, which removes an expired key by a second access. -/
def get (now : ℕ) (key : String) (next : Option Value → Steps) : Steps :=
  .access key id fun
    | none => next none
    | some e =>
      if e.isExpired now then .access key (fun _ => none) fun _ => next none
      else next (some e.value)

/-- Overwrite the key, in one access. -/
def set (now : ℕ) (key : String) (value : Value) (ttl : Option ℕ) (next : Steps) : Steps :=
  .access key (fun _ => some ⟨value, ttl.map (now + ·)⟩) fun _ => next

/-- Look whether the key is live, in one access. -/
def exists_ (now : ℕ) (key : String) (next : Bool → Steps) : Steps :=
  .access key id fun
    | none => next false
    | some e => next (!e.isExpired now)

/-- An access by `DashMap::get`. -/
def read (K : Kind α) (key : String) (dflt : β) (f : α → β) (next : Except String β → Steps) :
    Steps :=
  .access key id fun
    | none => next (.ok dflt)
    | some e =>
      match K.view e.value with
      | some a => next (.ok (f a))
      | none => next (.error wrongType)

/-- An access by `DashMap::get_mut`. -/
def update (K : Kind α) (key : String) (dflt : β) (f : α → Except String β × α)
    (next : Except String β → Steps) : Steps :=
  .access key
    (Option.map fun e =>
      match K.view e.value with
      | some a => { e with value := K.wrap (f a).2 }
      | none => e)
    fun
    | none => next (.ok dflt)
    | some e =>
      match K.view e.value with
      | some a => next (f a).1
      | none => next (.error wrongType)

/-- An access by `DashMap::entry` with `or_insert_with`. -/
def upsert (K : Kind α) (key : String) (init : α) (f : α → Except String β × α)
    (next : Except String β → Steps) : Steps :=
  .access key
    (fun o =>
      let e := o.getD ⟨K.wrap init, none⟩
      match K.view e.value with
      | some a => some { e with value := K.wrap (f a).2 }
      | none => some e)
    fun o =>
      match K.view (o.getD ⟨K.wrap init, none⟩).value with
      | some a => next (f a).1
      | none => next (.error wrongType)

/-- `lmove` and `smove`. -/
def move (K : Kind α) (src dst : String) (init : α) (take : α → Option β × α) (give : β → α → α)
    (next : Except String (Option β) → Steps) : Steps :=
  update K src none (fun a => Store.done (take a)) fun
    | .ok (some b) => upsert K dst init (fun a => Store.done (some b, give b a)) next
    | r => next r

/-- The loop of `cmd_mget`. -/
def mgetLoop (now : ℕ) : List (Option String) → (List Frame → Steps) → Steps
  | [], next => next []
  | none :: ks, next => mgetLoop now ks fun items => next (.nullBulk :: items)
  | some k :: ks, next =>
    get now k fun v =>
      let item := match v with
        | some (.string b) => .bulk (some b)
        | _ => .nullBulk
      mgetLoop now ks fun items => next (item :: items)

/-- The loop of `cmd_mset`. -/
def msetLoop (now : ℕ) (pairs : List (String × Bytes)) (next : Steps) : Steps :=
  pairs.foldr (fun p rest => set now p.1 (.string p.2) none rest) next

/-- The sets at `keys`, up to the first key of another type. -/
def getSets : List String → (Except String (List RedisSet) → Steps) → Steps
  | [], next => next (.ok [])
  | k :: ks, next =>
    read .set k RedisSet.new id fun
      | .error e => next (.error e)
      | .ok t => getSets ks fun r => next (r.map (t :: ·))

/-- The methods that combine sets and store the result. -/
def combineStore (f : RedisSet → List RedisSet → ExtTreeSet Bytes compare) (env : Env)
    (dst : String) (keys : List String) (next : Except String ℕ → Steps) : Steps :=
  getSets keys fun
    | .error e => next (.error e)
    | .ok sets =>
      let result := match sets with
        | [] => []
        | t :: ts => env.memberOrder (f t ts).toList
      .access dst (fun _ => some ⟨.set (RedisSet.new.sadd result).2, none⟩) fun _ =>
        next (.ok result.length)

/-- The reply that a handler makes of the result of a method. -/
def reply (fmt : β → Frame) : Except String β → Steps
  | .ok b => .done (fmt b)
  | .error e => .done (.error e)

end Steps

open Steps in
/-- The accesses of the commands that make more than one. -/
def Request.steps (env : Env) : Request → Option Steps
  | set key val dur nx xx =>
    some (exists_ env.now key fun found =>
      if nx && found then .done .nullBulk
      else if xx && !found then .done .nullBulk
      else Steps.set env.now key (.string val) dur (.done .ok))
  | setnx key val =>
    some (exists_ env.now key fun found =>
      if found then .done (.integer 0)
      else Steps.set env.now key (.string val) none (.done (.integer 1)))
  | getset key val =>
    some (Steps.get env.now key fun v =>
      let old := match v with
        | some (.string b) => some b
        | _ => none
      Steps.set env.now key (.string val) none (.done (.bulk old)))
  | mget ks => some (Steps.mgetLoop env.now ks fun items => .done (.array (some items)))
  | mset pairs => some (Steps.msetLoop env.now pairs (.done .ok))
  | lmove src dst fromLeft toLeft =>
    some (move .list src dst .new (fun l => if fromLeft then l.popFront else l.popBack)
      (fun val l => if toLeft then l.pushFront val else l.pushBack val) (reply bulkOrNull))
  | smove src dst member =>
    some (move .set src dst .new
      (fun t => (if (t.removeOne member).1 then some member else none, (t.removeOne member).2))
      (fun m t => (t.sadd [m]).2) fun r => reply .flag (r.map Option.isSome))
  | combineStore op dst ks =>
    some (Steps.combineStore op.fn env dst ks (reply fun n => .integer n))
  | _ => none

/-! ## A program alone -/

namespace Steps

variable {α β : Type} {key : String} {s : Store} {now : ℕ}

/-- Inserting an entry updates what is seen at its key. -/
theorem look_insert (s : Store) (key : String) (e : Entry) :
    look (s.insert key e) = Function.update s.look key (some e) := by
  ext k : 1
  rw [look, FinMap.getElem?_insert, Function.update_apply]
  simp only [eq_comm, look]

/-- Erasing a key leaves nothing to see there. -/
theorem look_erase (s : Store) (key : String) :
    look (s.erase key) = Function.update s.look key none := by
  ext k : 1
  rw [look, FinMap.getElem?_erase, Function.update_apply]
  simp only [eq_comm, look]

/-- Writing back what is seen changes nothing. -/
theorem update_look {o : Option Entry} (h : s[key]? = o) :
    Function.update s.look key o = s.look := by
  rw [← h]
  exact Function.update_eq_self key s.look

/-- An access that changes nothing. -/
theorem run_access_id (next : Option Entry → Steps) :
    (Prog.access key id next).run s.look = (next s[key]?).run s.look := by
  rw [Prog.run, id, Function.update_eq_self]
  rfl

/-- An access that gets is the store's `get`. -/
theorem run_get (next : Option Value → Steps) : (get now key next).run s.look =
    (next (s.get now key).1).run (s.get now key).2.look := by
  rw [get, run_access_id, Store.get]
  cases hkey : s[key]? with
  | none => rfl
  | some e =>
    by_cases hexp : e.isExpired now = true
    · simp only [hexp, if_true, Prog.run, look_erase]
    · simp only [hexp, if_false, Bool.false_eq_true]

/-- An access that sets is the store's `set`. -/
theorem run_set (value : Value) (ttl : Option ℕ) (next : Steps) :
    (set now key value ttl next).run s.look = next.run (s.set now key value ttl).look := by
  rw [set, Prog.run, Store.set, look_insert]

/-- An access that asks for a key is the store's `exists`. -/
theorem run_exists (next : Bool → Steps) : (exists_ now key next).run s.look =
    (next (s.exists_ now key)).run s.look := by
  rw [exists_, run_access_id, Store.exists_]
  cases s[key]? <;> rfl

section Patterns

variable {K : Kind α} {dflt : β} {init : α}

/-- An access that reads a value is the store's reading. -/
theorem run_read (f : α → β) (next : Except String β → Steps) :
    (read K key dflt f next).run s.look = (next (s.read K key dflt f)).run s.look := by
  rw [read, run_access_id, Store.read]
  cases s[key]? with
  | none => rfl
  | some e => cases hv : K.view e.value <;> simp only [hv]

/-- An access that updates a value is the store's update. -/
theorem run_update (f : α → Except String β × α) (next : Except String β → Steps) :
    (update K key dflt f next).run s.look =
      (next (s.update K key dflt f).1).run (s.update K key dflt f).2.look := by
  rw [update, Prog.run, show s.look key = s[key]? from rfl]
  cases hkey : s[key]? with
  | none =>
    rw [update_none hkey, Option.map_none, update_look hkey]
  | some e =>
    cases hv : K.view e.value with
    | none =>
      simp only [update_wrong hkey hv, Option.map_some, hv]
      rw [update_look hkey]
    | some a => simp only [update_some hkey hv, Option.map_some, hv, look_insert]

/-- An access that updates or makes a value is the store's upsert. -/
theorem run_upsert (f : α → Except String β × α) (next : Except String β → Steps) :
    (upsert K key init f next).run s.look =
      (next (s.upsert K key init f).1).run (s.upsert K key init f).2.look := by
  rw [upsert, Prog.run, show s.look key = s[key]? from rfl]
  cases hkey : s[key]? with
  | none => simp only [upsert_none hkey, Option.getD_none, K.view_wrap, look_insert]
  | some e =>
    cases hv : K.view e.value with
    | none =>
      simp only [upsert_wrong hkey hv, Option.getD_some, hv]
      rw [update_look hkey]
    | some a => simp only [upsert_some hkey hv, Option.getD_some, hv, look_insert]

/-- The accesses of a move, run alone, are the store's move. -/
theorem run_move {src dst : String} (take : α → Option β × α) (give : β → α → α)
    (next : Except String (Option β) → Steps) :
    (move K src dst init take give next).run s.look =
      (next (s.move K src dst init take give).1).run (s.move K src dst init take give).2.look := by
  rw [move, run_update, Store.move]
  generalize s.update K src none (fun a => Store.done (take a)) = r
  obtain ⟨r, s'⟩ := r
  cases r with
  | error e => rfl
  | ok o =>
    cases o with
    | none => rfl
    | some b => exact run_upsert _ next

end Patterns

/-- The accesses of `MGET`, run alone, are its loop. -/
theorem run_mgetLoop : ∀ (ks : List (Option String)) (s : Store) (next : List Frame → Steps),
    (mgetLoop now ks next).run s.look = (next (LoonyRedis.mgetLoop now ks s).1).run
      (LoonyRedis.mgetLoop now ks s).2.look
  | [], s, next => rfl
  | none :: ks, s, next => run_mgetLoop ks s _
  | some k :: ks, s, next => by
    rw [mgetLoop, run_get]
    exact run_mgetLoop ks (s.get now k).2 _

/-- The accesses of `MSET`, run alone, are its loop. -/
theorem run_msetLoop : ∀ (pairs : List (String × Bytes)) (s : Store) (next : Steps),
    (msetLoop now pairs next).run s.look = next.run (LoonyRedis.msetLoop now pairs s).look
  | [], _, _ => rfl
  | _ :: pairs, _, next => (run_set ..).trans (run_msetLoop pairs _ next)

/-- The accesses that collect the sets, run alone, are the store's. -/
theorem run_getSets : ∀ (ks : List String) (next : Except String (List RedisSet) → Steps),
    (getSets ks next).run s.look = (next (s.getSets ks)).run s.look
  | [], next => rfl
  | k :: ks, next => by
    rw [getSets, run_read, Store.getSets, List.mapM_cons]
    cases s.read .set k RedisSet.new id with
    | error e => rfl
    | ok t =>
      have hrest := run_getSets ks fun r => next (r.map (t :: ·))
      rw [Store.getSets] at hrest
      refine hrest.trans ?_
      cases ks.mapM fun k => s.read .set k RedisSet.new id <;> rfl

/-- The accesses of a stored combination, run alone, are the store's. -/
theorem run_combineStore (f : RedisSet → List RedisSet → ExtTreeSet Bytes compare) (env : Env)
    (dst : String) (ks : List String) (next : Except String ℕ → Steps) :
    (combineStore f env dst ks next).run s.look =
      (next (s.combineStore f env dst ks).1).run (s.combineStore f env dst ks).2.look := by
  rw [combineStore, run_getSets, Store.combineStore, Store.combine]
  cases s.getSets ks with
  | error e => rfl
  | ok sets =>
    cases sets with
    | nil => exact congrArg _ (look_insert s dst _).symm
    | cons t ts => exact congrArg _ (look_insert s dst _).symm

/-- A handler's reply is the format of what its access answers. -/
theorem run_reply {fmt : β → Frame} (r : Except String β × Store) :
    (reply fmt r.1).run r.2.look =
      ((Outcome.change r fmt).reply, (Outcome.change r fmt).store.look) := by
  obtain ⟨r, s⟩ := r
  cases r <;> rfl

end Steps

open Steps in
/-- The accesses of a command, one after the other, are the command. -/
theorem Request.run_steps (ctx : CommandContext) {env : Env} {r : Request} {p : Steps}
    (h : r.steps env = some p) (s : Store) :
    p.run s.look = ((r.run ctx env s).reply, (r.run ctx env s).store.look) := by
  cases r with
  | set key val dur nx xx =>
    obtain rfl := Option.some.inj h
    rw [run_exists, Request.run]
    by_cases hnx : (nx && s.exists_ env.now key) = true
    · simp only [hnx, if_true, Prog.run]
    · by_cases hxx : (xx && !s.exists_ env.now key) = true
      · simp only [hnx, hxx, if_true, if_false, Bool.false_eq_true, Prog.run]
      · simp only [hnx, hxx, if_false, Bool.false_eq_true, run_set, Prog.run]
  | setnx key val =>
    obtain rfl := Option.some.inj h
    rw [run_exists, Request.run]
    cases s.exists_ env.now key
    · exact run_set ..
    · rfl
  | getset key val =>
    obtain rfl := Option.some.inj h
    rw [run_get]
    exact run_set ..
  | mget ks =>
    obtain rfl := Option.some.inj h
    exact run_mgetLoop ks s _
  | mset pairs =>
    obtain rfl := Option.some.inj h
    exact run_msetLoop pairs s _
  | lmove src dst fromLeft toLeft =>
    obtain rfl := Option.some.inj h
    rw [run_move]
    exact run_reply _
  | smove src dst member =>
    obtain rfl := Option.some.inj h
    rw [run_move]
    exact run_reply (s.smove src dst member)
  | combineStore op dst ks =>
    obtain rfl := Option.some.inj h
    rw [run_combineStore]
    exact run_reply _
  | _ => cases h

/-! ## Two clients -/

/-- A request of a client. -/
structure Invocation where
  ctx : CommandContext
  env : Env
  request : Request

namespace Invocation

/-- The invocation at once, without another one in between. -/
def run (c : Invocation) (s : Store) : Outcome := c.request.run c.ctx c.env s

/-- The accesses of the invocation, if it is one of the modelled commands. -/
def steps (c : Invocation) : Option Steps := c.request.steps c.env

/-- The replies `a` and `b` and the entries `m` are those of `c` followed by `c'`. -/
def Then (c c' : Invocation) (s : Store) (a b : Frame) (m : String → Option Entry) : Prop :=
  a = (c.run s).reply ∧ b = (c'.run (c.run s).store).reply ∧
    m = (c'.run (c.run s).store).store.look

variable {c c' : Invocation} {p q : Steps} {s : Store} {a b : Frame} {m : String → Option Entry}
  {tr : Trace String (Option Entry)}

/-- A command whose accesses come first took effect first. -/
theorem then_of_firstBefore (hp : c.steps = some p) (hq : c'.steps = some q)
    (h : Interleave p q s.look tr a b m) (hord : tr.FirstBefore) : c.Then c' s a b m := by
  obtain ⟨-, ha, hbm⟩ := h.serial hord
  have hfirst : p.run s.look = ((c.run s).reply, (c.run s).store.look) :=
    Request.run_steps c.ctx hp s
  have hsecond := Request.run_steps c'.ctx hq (c.run s).store
  rw [hfirst] at ha hbm
  obtain ⟨hb, hm⟩ := Prod.ext_iff.mp (hbm.trans hsecond)
  exact ⟨ha, hb, hm⟩

/-- If the accesses of one command can all be put after those of the other, the replies and the
store are those of the commands in this order. -/
theorem commands_serialise (hp : c.steps = some p) (hq : c'.steps = some q)
    (h : Interleave p q s.look tr a b m)
    (hord : tr.FirstBefore ∨ tr.swap.FirstBefore) :
    c.Then c' s a b m ∨ c'.Then c s b a m :=
  hord.imp (then_of_firstBefore hp hq h) (then_of_firstBefore hq hp h.swap)

end Invocation

section Race

/-- `SETNX k val`. -/
def setnxOf (val : String) : Invocation :=
  ⟨.standalone, .plain 0, .setnx "k" (Utf8.toBytes val)⟩

theorem setnx_after_setnx (v w : String) :
    ((setnxOf w).run ((setnxOf v).run ∅).store).reply = .integer 0 := by
  have hmissing : (∅ : Store).exists_ 0 "k" = false := by
    rw [Store.exists_, ExtTreeMap.getElem?_empty]
  have hset : ((setnxOf v).run ∅).store =
      (∅ : Store).insert "k" ⟨.string (Utf8.toBytes v), none⟩ := by
    simp only [Invocation.run, setnxOf, Request.run, Env.plain, hmissing]
    rfl
  have hthere : ((setnxOf v).run ∅).store.exists_ 0 "k" = true := by
    rw [hset, Store.exists_, FinMap.getElem?_insert_self]
    rfl
  generalize ((setnxOf v).run ∅).store = s at hthere
  simp only [Invocation.run, setnxOf, Request.run, Env.plain, hthere, if_true]

/-- Both clients find that the key is missing before either sets it, and both get 1. -/
theorem both_setnx_win : ∃ p q tr m, (setnxOf "x").steps = some p ∧ (setnxOf "y").steps = some q ∧
    Interleave p q (look ∅) tr (.integer 1) (.integer 1) m ∧
      ¬ ((setnxOf "x").Then (setnxOf "y") ∅ (.integer 1) (.integer 1) m ∨
        (setnxOf "y").Then (setnxOf "x") ∅ (.integer 1) (.integer 1) m) := by
  refine ⟨_, _, _, _, rfl, rfl, .first (.second (.first (.second (.done _ _ _)))), ?_⟩
  rintro (⟨-, hreply, -⟩ | ⟨-, hreply, -⟩)
  · rw [setnx_after_setnx] at hreply
    cases hreply
  · rw [setnx_after_setnx] at hreply
    cases hreply

/-- `MSET a 1 b 2`. -/
def msetOf : Invocation :=
  ⟨.standalone, .plain 0, .mset [("a", Utf8.toBytes "1"), ("b", Utf8.toBytes "2")]⟩

/-- `MGET a b`. -/
def mgetOf : Invocation := ⟨.standalone, .plain 0, .mget [some "a", some "b"]⟩

/-- `MGET` follows `MSET` from key to key. -/
theorem mget_follows_mset : ∃ p q tr a b m, msetOf.steps = some p ∧ mgetOf.steps = some q ∧
    Interleave p q (look ∅) tr a b m ∧
      (msetOf.Then mgetOf ∅ a b m ∨ mgetOf.Then msetOf ∅ b a m) := by
  have hrun : (exec [true, false, true, false] (Steps.msetLoop 0
      [("a", Utf8.toBytes "1"), ("b", Utf8.toBytes "2")] (.done .ok))
      (Steps.mgetLoop 0 [some "a", some "b"] fun items => .done (.array (some items)))
      (look ∅)).any (fun r => decide (r.1.Pairwise fun e e' =>
        ∀ k ∈ e.getRight?.map (Access.key ∘ Prod.snd),
          e'.getLeft?.map (Access.key ∘ Prod.snd) ≠ some k)) = true := by
    decide
  obtain ⟨tr, a, b, m, h, htest⟩ := exists_interleave_of_exec hrun
  exact ⟨_, _, tr, a, b, m, rfl, rfl, h, Invocation.commands_serialise rfl rfl h
    (.inl (Trace.firstBefore_of_keys (of_decide_eq_true htest)))⟩

end Race

end LoonyRedis
