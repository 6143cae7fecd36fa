import LoonyRedis.Commands
import LoonyRedis.Wire

/-!
# The texts of replies

A simple string or an error is sent as a line, so its text must not contain a line end. The
errors of the store are fixed texts, and so are those of the handlers, with one exception :
`DEBUG` quotes a subcommand that it does not know. Everything else that depends on the request or on
the store is sent as a bulk string.
-/

namespace LoonyRedis

open Text (oneLine_ofList oneLine_between)

/-! ## Frames of one line -/

namespace Frame

@[simp] theorem oneLine_error {s : String} : (error s).OneLine ↔ Text.OneLine s := by
  rw [OneLine]
  rfl

theorem oneLine_error_ofList {cs : List Char} (h : Text.printable cs = true) :
    (error (String.ofList cs)).OneLine := oneLine_error.mpr (oneLine_ofList h)

@[simp] theorem oneLine_simpleString {s : String} : (simpleString s).OneLine ↔ Text.OneLine s := by
  rw [OneLine]
  rfl

@[simp] theorem oneLine_integer (n : ℤ) : (integer n).OneLine := by simp [OneLine]
@[simp] theorem oneLine_bulk (b : Option Bytes) : (bulk b).OneLine := by simp [OneLine]
@[simp] theorem oneLine_bulkStr (s : String) : (bulkStr s).OneLine := oneLine_bulk _
@[simp] theorem oneLine_nullBulk : nullBulk.OneLine := oneLine_bulk _
@[simp] theorem oneLine_flag (b : Bool) : (flag b).OneLine := oneLine_integer _
@[simp] theorem oneLine_ok : ok.OneLine := oneLine_simpleString.mpr (oneLine_ofList (by decide))
@[simp] theorem oneLine_pong : pong.OneLine := oneLine_simpleString.mpr (oneLine_ofList (by decide))

/-- An array has its elements' texts only. -/
theorem oneLine_array {fs : List Frame} : (array (some fs)).OneLine ↔ ∀ f ∈ fs, f.OneLine := by
  rw [OneLine, allOneLine_iff]

@[simp] theorem oneLine_emptyArray : emptyArray.OneLine := oneLine_array.mpr (by simp)

@[simp] theorem oneLine_bulks (bs : List Bytes) : (bulks bs).OneLine :=
  oneLine_array.mpr (by simp)

end Frame

/-- What is popped is answered in bulk strings. -/
theorem oneLine_poppedFrame (withCount : Bool) (one : List Bytes → Option Bytes) (v : List Bytes) :
    (poppedFrame withCount one v).OneLine := by
  cases withCount <;> simp [poppedFrame, bulkOrNull]

/-- Pairs are answered in bulk strings. -/
theorem oneLine_pairsFrame (pairs : List (Bytes × Bytes)) : (pairsFrame pairs).OneLine := by
  refine Frame.oneLine_array.mpr fun f hf => ?_
  obtain ⟨p, -, hf⟩ := List.mem_flatMap.mp hf
  simp only [List.mem_cons, List.not_mem_nil, or_false] at hf
  rcases hf with rfl | rfl <;> exact Frame.oneLine_bulk _

/-- Members and scores are answered in bulk strings. -/
theorem oneLine_zsetPairsToFrame (pairs : List (Bytes × F64)) (withscores : Bool) :
    (zsetPairsToFrame pairs withscores).OneLine := by
  refine Frame.oneLine_array.mpr fun f hf => ?_
  obtain ⟨p, -, hf⟩ := List.mem_flatMap.mp hf
  cases withscores <;> simp only [Bool.false_eq_true, if_true, if_false, List.mem_cons,
    List.not_mem_nil, or_false] at hf
  · rw [hf]
    exact Frame.oneLine_bulk _
  · rcases hf with rfl | rfl <;> exact Frame.oneLine_bulk _

theorem oneLine_wrongNumArgs {cmd : String} (h : Text.OneLine cmd) : (wrongNumArgs cmd).OneLine :=
  Frame.oneLine_error.mpr ((oneLine_between (by decide) (by decide)).mpr h)

/-! ## The errors of the store -/

/-- The error of a result, if it is one, is a line. -/
def ErrorOneLine {β : Type} (r : Except String β) : Prop := ∀ e, r = .error e → Text.OneLine e

section Errors

variable {α β γ : Type} {K : Kind α} {key : String} {dflt : β} {init : α} {s : Store}

theorem errorOneLine_ok (b : β) : ErrorOneLine (.ok b) := fun _ h => nomatch h

theorem errorOneLine_error {e : String} (h : Text.OneLine e) :
    ErrorOneLine (.error e : Except String β) := fun e' he => by
  rw [← Except.error.inj he]
  exact h

/-- The wrong-type error is one line. -/
theorem oneLine_wrongType : Text.OneLine wrongType := oneLine_ofList (by decide)

theorem errorOneLine_wrongType : ErrorOneLine (.error wrongType : Except String β) :=
  errorOneLine_error oneLine_wrongType

theorem errorOneLine_map {r : Except String β} (h : ErrorOneLine r) (f : β → γ) :
    ErrorOneLine (r.map f) := by
  cases r with
  | ok b => exact errorOneLine_ok _
  | error e => exact errorOneLine_error (h e rfl)

/-- A read fails with the wrong-type error only. -/
theorem errorOneLine_read {g : α → β} : ErrorOneLine (s.read K key dflt g) := by
  unfold Store.read
  split
  · exact errorOneLine_ok _
  · split
    · exact errorOneLine_ok _
    · exact errorOneLine_wrongType

/-- An update fails as its function does, or with the wrong-type error. -/
theorem errorOneLine_update {f : α → Except String β × α} (hf : ∀ a, ErrorOneLine (f a).1) :
    ErrorOneLine (s.update K key dflt f).1 := by
  unfold Store.update
  split
  · exact errorOneLine_ok _
  · split
    · exact hf _
    · exact errorOneLine_wrongType

/-- An upsert fails as its function does, or with the wrong-type error. -/
theorem errorOneLine_upsert {f : α → Except String β × α} (hf : ∀ a, ErrorOneLine (f a).1) :
    ErrorOneLine (s.upsert K key init f).1 := by
  simp only [Store.upsert]
  split
  · exact hf _
  · exact errorOneLine_wrongType

theorem errorOneLine_update_done {g : α → β × α} :
    ErrorOneLine (s.update K key dflt fun a => Store.done (g a)).1 :=
  errorOneLine_update fun _ => errorOneLine_ok _

theorem errorOneLine_upsert_done {g : α → β × α} :
    ErrorOneLine (s.upsert K key init fun a => Store.done (g a)).1 :=
  errorOneLine_upsert fun _ => errorOneLine_ok _

/-- A move fails with the wrong-type error only. -/
theorem errorOneLine_move {src dst : String} {take : α → Option β × α} {give : β → α → α} :
    ErrorOneLine (s.move K src dst init take give).1 := by
  have hupdate : ErrorOneLine (s.update K src none fun a => Store.done (take a)).1 :=
    errorOneLine_update_done
  unfold Store.move
  split
  · next heq =>
    rw [heq] at hupdate
    exact hupdate
  · exact errorOneLine_ok _
  · exact errorOneLine_upsert_done

theorem errorOneLine_incrby (delta : Text.I64) : ErrorOneLine (s.incrby key delta).1 :=
  errorOneLine_upsert fun b => by
    split
    · exact errorOneLine_error (oneLine_ofList (by decide))
    · split
      · exact errorOneLine_error (oneLine_ofList (by decide))
      · exact errorOneLine_ok _

theorem errorOneLine_lset (index : ℤ) (val : Bytes) : ErrorOneLine (s.lset key index val).1 :=
  errorOneLine_update fun l => by
    split
    · exact errorOneLine_error (oneLine_ofList (by decide))
    · exact errorOneLine_ok _

theorem errorOneLine_hincrby (field : Bytes) (delta : Text.I64) :
    ErrorOneLine (s.hincrby key field delta).1 :=
  errorOneLine_upsert fun h => by
    split
    · exact errorOneLine_error (oneLine_ofList (by decide))
    · split
      · exact errorOneLine_error (oneLine_ofList (by decide))
      · exact errorOneLine_ok _

theorem errorOneLine_hincrbyfloat (field : Bytes) (delta : F64) :
    ErrorOneLine (s.hincrbyfloat key field delta).1 :=
  errorOneLine_upsert fun h => by
    split
    · exact errorOneLine_error (oneLine_ofList (by decide))
    · exact errorOneLine_ok _

theorem errorOneLine_hsetLoop : ∀ (pairs : List (Bytes × Bytes)) (s : Store),
    ErrorOneLine (hsetLoop key pairs s).1
  | [], _ => errorOneLine_ok _
  | (f, v) :: pairs, s => by
    have hstep : ErrorOneLine (s.hset key f v).1 := errorOneLine_upsert_done
    unfold hsetLoop
    split
    · next heq =>
      rw [heq] at hstep
      exact hstep
    · exact errorOneLine_map (errorOneLine_hsetLoop pairs _) _

/-- The errors of `ZADD` are one line. -/
theorem errorOneLine_zaddLoop (flags : ZaddFlags) : ∀ (steps : List ZaddStep) (s : Store),
    ErrorOneLine (zaddLoop key flags steps s).1
  | [], _ => errorOneLine_ok _
  | .skip :: steps, s => errorOneLine_zaddLoop flags steps s
  | .bad :: _, _ => errorOneLine_error (oneLine_ofList (by decide))
  | .add x m :: steps, s => by
    have hstep : ErrorOneLine (s.zadd key x m flags.nx flags.xx flags.gt flags.lt).1 :=
      errorOneLine_upsert_done
    unfold zaddLoop
    split
    · next heq =>
      rw [heq] at hstep
      exact hstep
    · exact errorOneLine_map (errorOneLine_zaddLoop flags steps _) _

/-- Collecting sets fails with the wrong-type error only. -/
theorem errorOneLine_getSets (s : Store) : ∀ keys : List String, ErrorOneLine (s.getSets keys)
  | [] => errorOneLine_ok _
  | k :: keys => by
    have hk : ErrorOneLine (s.read .set k RedisSet.new id) := errorOneLine_read
    have ih : ErrorOneLine (s.getSets keys) := errorOneLine_getSets s keys
    have hcons : s.getSets (k :: keys) =
        s.read .set k RedisSet.new id >>= fun t => (s.getSets keys).map (t :: ·) := by
      rw [Store.getSets, List.mapM_cons]
      rfl
    rw [hcons]
    cases hr : s.read .set k RedisSet.new id with
    | error e => exact errorOneLine_error (hk e hr)
    | ok t => exact errorOneLine_map ih _

theorem errorOneLine_combine (op : SetOp) (env : Env) (keys : List String) :
    ErrorOneLine (s.combine op.fn env keys) := by
  have hsets := errorOneLine_getSets s keys
  unfold Store.combine
  cases hr : s.getSets keys with
  | error e => exact errorOneLine_error (hsets e hr)
  | ok ts => cases ts <;> exact errorOneLine_ok _

theorem errorOneLine_combineStore (op : SetOp) (env : Env) (dst : String) (keys : List String) :
    ErrorOneLine (s.combineStore op.fn env dst keys).1 := by
  have hcombine : ErrorOneLine (s.combine op.fn env keys) := errorOneLine_combine op env keys
  unfold Store.combineStore
  cases hr : s.combine op.fn env keys with
  | error e => exact errorOneLine_error (hcombine e hr)
  | ok ms => exact errorOneLine_ok _

end Errors

/-! ## Requests -/

namespace Request

variable {ctx : CommandContext} {env : Env} {s : Store}

/-- A handler's reply is one line if its format and its errors are. -/
theorem oneLine_of {β : Type} {r : Except String β × Store} {fmt : β → Frame}
    {log : β → List Record} (hfmt : ∀ b, (fmt b).OneLine) (hr : ErrorOneLine r.1) :
    (Outcome.of r fmt log).reply.OneLine := by
  unfold Outcome.of
  split
  · exact hfmt _
  · next he => exact Frame.oneLine_error.mpr (hr _ he)

/-- `MGET` answers bulk strings. -/
theorem mgetLoop_oneLine {now : ℕ} : ∀ (ks : List (Option String)) (s : Store),
    ∀ f ∈ (mgetLoop now ks s).1, f.OneLine
  | [], _ => by simp [mgetLoop]
  | none :: ks, s => by
    rw [mgetLoop, List.forall_mem_cons]
    exact ⟨Frame.oneLine_nullBulk, mgetLoop_oneLine ks s⟩
  | some k :: ks, s => by
    rw [mgetLoop, List.forall_mem_cons]
    refine ⟨?_, mgetLoop_oneLine ks _⟩
    split <;> simp

/-- Whatever the request, but for a frame that it holds itself, its reply is on one line. -/
theorem run_oneLine {r : Request} (hanswer : ∀ f, r = .answer f → f.OneLine) :
    (r.run ctx env s).reply.OneLine := by
  cases r with
  | answer f => exact hanswer f rfl
  | debugObject key =>
    simp only [run]
    split
    · exact Frame.oneLine_bulkStr _
    · exact Frame.oneLine_error_ofList (by decide)
  | type key =>
    refine Frame.oneLine_simpleString.mpr ?_
    unfold Store.typeOf
    split
    · exact oneLine_ofList (by decide)
    · split
      · exact oneLine_ofList (by decide)
      · split <;> exact oneLine_ofList (by decide)
  | get key | strlen key =>
    simp only [run]
    split
    · simp
    · exact Frame.oneLine_error.mpr oneLine_wrongType
    · simp
  | set key val dur nx xx =>
    simp only [run]
    split
    · simp
    · split <;> simp
  | setnx key val =>
    simp only [run]
    split <;> simp
  | mget ks =>
    exact Frame.oneLine_array.mpr (mgetLoop_oneLine ks s)
  | hmget key fields =>
    refine Frame.oneLine_array.mpr fun f hf => ?_
    obtain ⟨o, -, rfl⟩ := List.mem_map.mp hf
    split
    · simp
    · split <;> simp
  | append => exact oneLine_of (fun _ => by simp) errorOneLine_upsert_done
  | incrby key delta record => exact oneLine_of (fun _ => by simp) (errorOneLine_incrby delta)
  | push left key values =>
    cases left <;> exact oneLine_of (fun _ => by simp) errorOneLine_upsert_done
  | pop left key count withCount =>
    cases left <;> exact oneLine_of (oneLine_poppedFrame _ _) errorOneLine_update_done
  | lset key index val =>
    refine oneLine_of (fun b => ?_) (errorOneLine_lset index val)
    cases b
    · exact Frame.oneLine_error_ofList (by decide)
    · simp
  | linsert | lrem | ltrim | hdel | srem | zrem | zremrangebyrank | zremrangebyscore =>
    exact oneLine_of (fun _ => by simp) errorOneLine_update_done
  | lmove => exact oneLine_of (fun _ => by simp [bulkOrNull]) errorOneLine_move
  | smove src dst member =>
    exact oneLine_of (fun _ => by simp) (errorOneLine_map errorOneLine_move _)
  | hset key pairs => exact oneLine_of (fun _ => by simp) (errorOneLine_hsetLoop pairs s)
  | hsetnx | sadd => exact oneLine_of (fun _ => by simp) errorOneLine_upsert_done
  | zincrby => exact oneLine_of (fun _ => by simp [scoreFrame]) errorOneLine_upsert_done
  | hincrby key field delta =>
    exact oneLine_of (fun _ => by simp) (errorOneLine_hincrby field delta)
  | hincrbyfloat key field delta =>
    exact oneLine_of (fun _ => by simp [scoreFrame]) (errorOneLine_hincrbyfloat field delta)
  | hgetall => exact oneLine_of oneLine_pairsFrame errorOneLine_read
  | srandmember key count => exact oneLine_of (oneLine_poppedFrame _ _) errorOneLine_read
  | spop key count => exact oneLine_of (oneLine_poppedFrame _ _) errorOneLine_update_done
  | combine op ks => exact oneLine_of (fun _ => by simp) (errorOneLine_combine op env ks)
  | combineStore op dst ks =>
    exact oneLine_of (fun _ => by simp) (errorOneLine_combineStore op env dst ks)
  | zadd key flags steps =>
    exact oneLine_of (fun _ => by simp) (errorOneLine_zaddLoop flags steps s)
  | zrank | zrevrank => exact oneLine_of (fun r => by cases r <;> simp) errorOneLine_read
  | zrange | zrangebyscore =>
    exact oneLine_of (fun p => oneLine_zsetPairsToFrame p _) errorOneLine_read
  | zpopmin | zpopmax =>
    exact oneLine_of (fun p => oneLine_zsetPairsToFrame p _) errorOneLine_update_done
  | llen | lrange | lindex | hget | hlen | hexists | hkeys | hvals | smembers | sismember | scard
  | zscore | zcard | zcount =>
    exact oneLine_of (fun _ => by simp [bulkOrNull]) errorOneLine_read
  | info | del | existsKeys | expire | ttl | pttl | persist | keys | dbsize | flush | mset
  | getset => simp [run]

end Request

/-! ## Handlers -/

/-- What a handler answers without the store, if it does, is on one line. -/
def AnswersOneLine : Reading → Prop
  | .error f => f.OneLine
  | .ok (.answer f) => f.OneLine
  | .ok _ => True

section Handlers

variable {args : List Frame}

theorem answersOneLine_answer {f : Frame} (h : f.OneLine) : AnswersOneLine (.ok (.answer f)) := h

/-- A missing argument is answered in one line. -/
theorem answersOneLine_need {α : Type} {o : Option α} {f : Frame} {g : α → Reading}
    (hf : f.OneLine) (hg : ∀ a, AnswersOneLine (g a)) : AnswersOneLine (need o f >>= g) := by
  cases o with
  | none => exact hf
  | some a => exact hg a

theorem answersOneLine_text {α : Type} {o : Option α} {msg : String} {g : α → Reading}
    (hmsg : Text.OneLine msg) (hg : ∀ a, AnswersOneLine (g a)) :
    AnswersOneLine (need o (.error msg) >>= g) :=
  answersOneLine_need (Frame.oneLine_error.mpr hmsg) hg

/-- A failed test is answered in one line. -/
theorem answersOneLine_require {b : Bool} {cmd : String} {g : Unit → Reading}
    (hcmd : Text.OneLine cmd) (hg : AnswersOneLine (g ())) :
    AnswersOneLine (require b cmd >>= g) := by
  cases b with
  | false => exact oneLine_wrongNumArgs hcmd
  | true => exact hg

/-- The arity and the key, which most commands check first. -/
theorem answersOneLine_keyed {b : Bool} {cmd cmd' : String} {i : ℕ} {g : String → Reading}
    (hcmd : Text.OneLine cmd) (hcmd' : Text.OneLine cmd') (hg : ∀ key, AnswersOneLine (g key)) :
    AnswersOneLine (require b cmd >>= fun _ => strArg args i cmd' >>= g) :=
  answersOneLine_require hcmd (answersOneLine_need (oneLine_wrongNumArgs hcmd') hg)

theorem answersOneLine_bytes {cmd : String} {i : ℕ} {g : Bytes → Reading}
    (hcmd : Text.OneLine cmd) (hg : ∀ b, AnswersOneLine (g b)) :
    AnswersOneLine (bytesArg args i cmd >>= g) :=
  answersOneLine_need (oneLine_wrongNumArgs hcmd) hg

theorem answersOneLine_str {cmd : String} {i : ℕ} {g : String → Reading}
    (hcmd : Text.OneLine cmd) (hg : ∀ b, AnswersOneLine (g b)) :
    AnswersOneLine (strArg args i cmd >>= g) :=
  answersOneLine_need (oneLine_wrongNumArgs hcmd) hg

theorem answersOneLine_keyword {yes no w : String} {g : Bool → Reading}
    (hg : ∀ b, AnswersOneLine (g b)) : AnswersOneLine (keyword yes no w >>= g) := by
  unfold keyword
  split
  · exact hg true
  · split
    · exact hg false
    · exact Frame.oneLine_error_ofList (by decide)

variable {cmd : String}

theorem answersOneLine_keyCommand {req : String → Request} (hcmd : Text.OneLine cmd)
    (hreq : ∀ key, AnswersOneLine (.ok (req key))) : AnswersOneLine (keyCommand cmd req args) :=
  answersOneLine_keyed hcmd hcmd hreq

theorem answersOneLine_manyCommand {req : String → List Bytes → Request} (hcmd : Text.OneLine cmd)
    (hreq : ∀ key bs, AnswersOneLine (.ok (req key bs))) :
    AnswersOneLine (manyCommand cmd req args) :=
  answersOneLine_keyed hcmd hcmd fun key => hreq key _

theorem answersOneLine_fieldCommand {req : String → Bytes → Request} {arity : ℕ → Bool}
    (hcmd : Text.OneLine cmd) (hreq : ∀ key b, AnswersOneLine (.ok (req key b))) :
    AnswersOneLine (fieldCommand cmd req arity args) :=
  answersOneLine_keyed hcmd hcmd fun key => answersOneLine_bytes hcmd (hreq key)

theorem answersOneLine_windowCommand {req : String → ℤ → ℤ → Request} {arity : ℕ → Bool}
    (hcmd : Text.OneLine cmd) (hreq : ∀ key a b, AnswersOneLine (.ok (req key a b))) :
    AnswersOneLine (windowCommand cmd req arity args) :=
  answersOneLine_keyed hcmd hcmd fun key =>
    answersOneLine_text (oneLine_ofList (by decide)) fun a =>
      answersOneLine_text (oneLine_ofList (by decide)) fun b => hreq key a b

theorem answersOneLine_expireCommand {unit : ℕ} (hcmd : Text.OneLine cmd) :
    AnswersOneLine (expireCommand cmd unit args) :=
  answersOneLine_keyed hcmd hcmd fun _ =>
    answersOneLine_text (oneLine_ofList (by decide)) fun _ => trivial

theorem answersOneLine_popCommand {left : Bool} (hcmd : Text.OneLine cmd) :
    AnswersOneLine (popCommand cmd left args) :=
  answersOneLine_keyed hcmd hcmd fun _ => trivial

theorem answersOneLine_combineCommand {op : SetOp} (hcmd : Text.OneLine cmd) :
    AnswersOneLine (combineCommand cmd op args) :=
  answersOneLine_require hcmd trivial

theorem answersOneLine_combineStoreCommand {op : SetOp} (hcmd : Text.OneLine cmd) :
    AnswersOneLine (combineStoreCommand cmd op args) :=
  answersOneLine_keyed hcmd hcmd fun _ => trivial

theorem answersOneLine_zpopCommand {req : String → ℕ → Request} (hcmd : Text.OneLine cmd)
    (hreq : ∀ key n, AnswersOneLine (.ok (req key n))) :
    AnswersOneLine (zpopCommand cmd req args) :=
  answersOneLine_keyed hcmd hcmd fun key => hreq key _

theorem answersOneLine_incrby (delta : Text.I64) : AnswersOneLine (cmdIncrby delta args) := by
  refine answersOneLine_keyed ?_ (oneLine_ofList (by decide)) fun _ => trivial
  split <;> exact oneLine_ofList (by decide)

theorem answersOneLine_incrbyBy (sign : ℤ) : AnswersOneLine (cmdIncrbyBy sign args) := by
  refine answersOneLine_keyed ?_ (oneLine_ofList (by decide)) fun _ =>
    answersOneLine_text (oneLine_ofList (by decide)) fun _ => trivial
  split <;> exact oneLine_ofList (by decide)

theorem answersOneLine_zadd : AnswersOneLine (cmdZadd args) := by
  have hcmd : Text.OneLine "zadd" := oneLine_ofList (by decide)
  exact answersOneLine_keyed hcmd hcmd fun _ => answersOneLine_require hcmd trivial

/-- The commands of sorted sets with two bounds. -/
theorem answersOneLine_bounds {b : Bool} {i j : ℕ} {msg msg' : String}
    {g : String → ScoreBound → ScoreBound → Reading} (hcmd : Text.OneLine cmd)
    (hmsg : Text.OneLine msg) (hmsg' : Text.OneLine msg')
    (hg : ∀ key lo hi, AnswersOneLine (g key lo hi)) :
    AnswersOneLine (require b cmd >>= fun _ => strArg args 1 cmd >>= fun key =>
      boundArg args i msg >>= fun lo => boundArg args j msg' >>= fun hi => g key lo hi) :=
  answersOneLine_keyed hcmd hcmd fun key => answersOneLine_text hmsg fun lo =>
    answersOneLine_text hmsg' fun hi => hg key lo hi

theorem answersOneLine_ping : AnswersOneLine (cmdPing args) := by
  unfold cmdPing
  refine answersOneLine_answer ?_
  split <;> simp

theorem answersOneLine_echo : AnswersOneLine (cmdEcho args) := by
  have hcmd : Text.OneLine "echo" := oneLine_ofList (by decide)
  refine answersOneLine_require hcmd (answersOneLine_bytes hcmd fun _ => ?_)
  exact answersOneLine_answer (Frame.oneLine_bulk _)

theorem answersOneLine_set : AnswersOneLine (cmdSet args) := by
  have hcmd : Text.OneLine "set" := oneLine_ofList (by decide)
  refine answersOneLine_keyed hcmd hcmd fun _ => ?_
  refine answersOneLine_bytes hcmd fun _ => ?_
  trivial

theorem answersOneLine_append : AnswersOneLine (cmdAppend args) := by
  have hcmd : Text.OneLine "append" := oneLine_ofList (by decide)
  refine answersOneLine_keyed hcmd hcmd fun _ => ?_
  refine answersOneLine_bytes hcmd fun _ => ?_
  trivial

theorem answersOneLine_getset : AnswersOneLine (cmdGetset args) := by
  have hcmd : Text.OneLine "getset" := oneLine_ofList (by decide)
  refine answersOneLine_keyed hcmd hcmd fun _ => ?_
  refine answersOneLine_bytes hcmd fun _ => ?_
  trivial

theorem answersOneLine_setnx : AnswersOneLine (cmdSetnx args) := by
  have hcmd : Text.OneLine "setnx" := oneLine_ofList (by decide)
  refine answersOneLine_keyed hcmd hcmd fun _ => ?_
  refine answersOneLine_bytes hcmd fun _ => ?_
  trivial

theorem answersOneLine_lrange : AnswersOneLine (cmdLrange args) := by
  have hcmd : Text.OneLine "lrange" := oneLine_ofList (by decide)
  refine answersOneLine_keyed hcmd hcmd fun _ => ?_
  refine answersOneLine_text (oneLine_ofList (by decide)) fun _ => ?_
  refine answersOneLine_text (oneLine_ofList (by decide)) fun _ => ?_
  trivial

theorem answersOneLine_lindex : AnswersOneLine (cmdLindex args) := by
  have hcmd : Text.OneLine "lindex" := oneLine_ofList (by decide)
  refine answersOneLine_keyed hcmd hcmd fun _ => ?_
  refine answersOneLine_text (oneLine_ofList (by decide)) fun _ => ?_
  trivial

theorem answersOneLine_lset : AnswersOneLine (cmdLset args) := by
  have hcmd : Text.OneLine "lset" := oneLine_ofList (by decide)
  refine answersOneLine_keyed hcmd hcmd fun _ => ?_
  refine answersOneLine_text (oneLine_ofList (by decide)) fun _ => ?_
  refine answersOneLine_bytes hcmd fun _ => ?_
  trivial

theorem answersOneLine_linsert : AnswersOneLine (cmdLinsert args) := by
  have hcmd : Text.OneLine "linsert" := oneLine_ofList (by decide)
  refine answersOneLine_keyed hcmd hcmd fun _ => ?_
  refine answersOneLine_str hcmd fun _ => ?_
  refine answersOneLine_bytes hcmd fun _ => ?_
  refine answersOneLine_bytes hcmd fun _ => ?_
  refine answersOneLine_keyword fun _ => ?_
  trivial

theorem answersOneLine_lrem : AnswersOneLine (cmdLrem args) := by
  have hcmd : Text.OneLine "lrem" := oneLine_ofList (by decide)
  refine answersOneLine_keyed hcmd hcmd fun _ => ?_
  refine answersOneLine_text (oneLine_ofList (by decide)) fun _ => ?_
  refine answersOneLine_bytes hcmd fun _ => ?_
  trivial

theorem answersOneLine_lmove : AnswersOneLine (cmdLmove args) := by
  have hcmd : Text.OneLine "lmove" := oneLine_ofList (by decide)
  refine answersOneLine_keyed hcmd hcmd fun _ => ?_
  refine answersOneLine_str hcmd fun _ => ?_
  refine answersOneLine_str hcmd fun _ => ?_
  refine answersOneLine_str hcmd fun _ => ?_
  refine answersOneLine_keyword fun _ => ?_
  refine answersOneLine_keyword fun _ => ?_
  trivial

theorem answersOneLine_hsetnx : AnswersOneLine (cmdHsetnx args) := by
  have hcmd : Text.OneLine "hsetnx" := oneLine_ofList (by decide)
  refine answersOneLine_keyed hcmd hcmd fun _ => ?_
  refine answersOneLine_bytes hcmd fun _ => ?_
  refine answersOneLine_bytes hcmd fun _ => ?_
  trivial

theorem answersOneLine_hincrby : AnswersOneLine (cmdHincrby args) := by
  have hcmd : Text.OneLine "hincrby" := oneLine_ofList (by decide)
  refine answersOneLine_keyed hcmd hcmd fun _ => ?_
  refine answersOneLine_bytes hcmd fun _ => ?_
  refine answersOneLine_text (oneLine_ofList (by decide)) fun _ => ?_
  trivial

theorem answersOneLine_hincrbyfloat : AnswersOneLine (cmdHincrbyfloat args) := by
  have hcmd : Text.OneLine "hincrbyfloat" := oneLine_ofList (by decide)
  refine answersOneLine_keyed hcmd hcmd fun _ => ?_
  refine answersOneLine_bytes hcmd fun _ => ?_
  refine answersOneLine_text (oneLine_ofList (by decide)) fun _ => ?_
  trivial

theorem answersOneLine_smove : AnswersOneLine (cmdSmove args) := by
  have hcmd : Text.OneLine "smove" := oneLine_ofList (by decide)
  refine answersOneLine_keyed hcmd hcmd fun _ => ?_
  refine answersOneLine_str hcmd fun _ => ?_
  refine answersOneLine_bytes hcmd fun _ => ?_
  trivial

theorem answersOneLine_zincrby : AnswersOneLine (cmdZincrby args) := by
  have hcmd : Text.OneLine "zincrby" := oneLine_ofList (by decide)
  refine answersOneLine_keyed hcmd hcmd fun _ => ?_
  refine answersOneLine_text (oneLine_ofList (by decide)) fun _ => ?_
  refine answersOneLine_bytes hcmd fun _ => ?_
  trivial

/-- Only `DEBUG` quotes its arguments. -/
theorem answersOneLine_commandTable (ctx : CommandContext) :
    ∀ p ∈ commandTable ctx, p.1 ≠ "DEBUG" → ∀ args, AnswersOneLine (p.2 args) := by
  have lit {cs : List Char} : Text.printable cs = true → Text.OneLine (String.ofList cs) :=
    oneLine_ofList
  simp only [commandTable, List.forall_mem_cons]
  exact ⟨fun _ _ => answersOneLine_ping,
    fun _ _ => answersOneLine_echo,
    fun _ _ => Frame.oneLine_ok,
    fun _ _ => Frame.oneLine_ok,
    fun _ _ => Frame.oneLine_ok,
    fun _ _ => Frame.oneLine_emptyArray,
    fun _ _ => Frame.oneLine_emptyArray,
    fun _ _ => trivial,
    fun h => absurd rfl h,
    fun _ _ => answersOneLine_require (lit (by decide)) trivial,
    fun _ _ => answersOneLine_require (lit (by decide)) trivial,
    fun _ _ => answersOneLine_keyCommand (lit (by decide)) fun _ => trivial,
    fun _ _ => answersOneLine_expireCommand (lit (by decide)),
    fun _ _ => answersOneLine_expireCommand (lit (by decide)),
    fun _ _ => answersOneLine_keyCommand (lit (by decide)) fun _ => trivial,
    fun _ _ => answersOneLine_keyCommand (lit (by decide)) fun _ => trivial,
    fun _ _ => answersOneLine_keyCommand (lit (by decide)) fun _ => trivial,
    fun _ _ => trivial,
    fun _ _ => trivial,
    fun _ _ => trivial,
    fun _ _ => trivial,
    fun _ _ => answersOneLine_keyCommand (lit (by decide)) fun _ => trivial,
    fun _ _ => answersOneLine_set,
    fun _ _ => answersOneLine_require (lit (by decide)) trivial,
    fun _ _ => answersOneLine_require (lit (by decide)) trivial,
    fun _ _ => answersOneLine_keyCommand (lit (by decide)) fun _ => trivial,
    fun _ _ => answersOneLine_append,
    fun _ _ => answersOneLine_incrby _,
    fun _ _ => answersOneLine_incrby _,
    fun _ _ => answersOneLine_incrbyBy _,
    fun _ _ => answersOneLine_incrbyBy _,
    fun _ _ => answersOneLine_getset,
    fun _ _ => answersOneLine_setnx,
    fun _ _ => answersOneLine_manyCommand (lit (by decide)) fun _ _ => trivial,
    fun _ _ => answersOneLine_manyCommand (lit (by decide)) fun _ _ => trivial,
    fun _ _ => answersOneLine_popCommand (lit (by decide)),
    fun _ _ => answersOneLine_popCommand (lit (by decide)),
    fun _ _ => answersOneLine_keyCommand (lit (by decide)) fun _ => trivial,
    fun _ _ => answersOneLine_lrange,
    fun _ _ => answersOneLine_lindex,
    fun _ _ => answersOneLine_lset,
    fun _ _ => answersOneLine_linsert,
    fun _ _ => answersOneLine_lrem,
    fun _ _ => answersOneLine_windowCommand (lit (by decide)) fun _ _ _ => trivial,
    fun _ _ => answersOneLine_lmove,
    fun _ _ => answersOneLine_keyed (lit (by decide)) (lit (by decide)) fun _ => trivial,
    fun _ _ => answersOneLine_keyed (lit (by decide)) (lit (by decide)) fun _ => trivial,
    fun _ _ => answersOneLine_fieldCommand (lit (by decide)) fun _ _ => trivial,
    fun _ _ => answersOneLine_keyed (lit (by decide)) (lit (by decide)) fun _ => trivial,
    fun _ _ => answersOneLine_keyCommand (lit (by decide)) fun _ => trivial,
    fun _ _ => answersOneLine_manyCommand (lit (by decide)) fun _ _ => trivial,
    fun _ _ => answersOneLine_keyCommand (lit (by decide)) fun _ => trivial,
    fun _ _ => answersOneLine_fieldCommand (lit (by decide)) fun _ _ => trivial,
    fun _ _ => answersOneLine_keyCommand (lit (by decide)) fun _ => trivial,
    fun _ _ => answersOneLine_keyCommand (lit (by decide)) fun _ => trivial,
    fun _ _ => answersOneLine_hsetnx,
    fun _ _ => answersOneLine_hincrby,
    fun _ _ => answersOneLine_hincrbyfloat,
    fun _ _ => answersOneLine_manyCommand (lit (by decide)) fun _ _ => trivial,
    fun _ _ => answersOneLine_keyCommand (lit (by decide)) fun _ => trivial,
    fun _ _ => answersOneLine_fieldCommand (lit (by decide)) fun _ _ => trivial,
    fun _ _ => answersOneLine_manyCommand (lit (by decide)) fun _ _ => trivial,
    fun _ _ => answersOneLine_keyCommand (lit (by decide)) fun _ => trivial,
    fun _ _ => answersOneLine_smove,
    fun _ _ => answersOneLine_keyed (lit (by decide)) (lit (by decide)) fun _ => trivial,
    fun _ _ => answersOneLine_keyed (lit (by decide)) (lit (by decide)) fun _ => trivial,
    fun _ _ => answersOneLine_combineCommand (lit (by decide)),
    fun _ _ => answersOneLine_combineCommand (lit (by decide)),
    fun _ _ => answersOneLine_combineCommand (lit (by decide)),
    fun _ _ => answersOneLine_combineStoreCommand (lit (by decide)),
    fun _ _ => answersOneLine_combineStoreCommand (lit (by decide)),
    fun _ _ => answersOneLine_combineStoreCommand (lit (by decide)),
    fun _ _ => answersOneLine_zadd,
    fun _ _ => answersOneLine_fieldCommand (lit (by decide)) fun _ _ => trivial,
    fun _ _ => answersOneLine_fieldCommand (lit (by decide)) fun _ _ => trivial,
    fun _ _ => answersOneLine_fieldCommand (lit (by decide)) fun _ _ => trivial,
    fun _ _ => answersOneLine_keyCommand (lit (by decide)) fun _ => trivial,
    fun _ _ => answersOneLine_bounds (lit (by decide)) (lit (by decide)) (lit (by decide))
      fun _ _ _ => trivial,
    fun _ _ => answersOneLine_zincrby,
    fun _ _ => answersOneLine_manyCommand (lit (by decide)) fun _ _ => trivial,
    fun _ _ => answersOneLine_windowCommand (lit (by decide)) fun _ _ _ => trivial,
    fun _ _ => answersOneLine_windowCommand (lit (by decide)) fun _ _ _ => trivial,
    fun _ _ => answersOneLine_bounds (lit (by decide)) (lit (by decide)) (lit (by decide))
      fun _ _ _ => trivial,
    fun _ _ => answersOneLine_bounds (lit (by decide)) (lit (by decide)) (lit (by decide))
      fun _ _ _ => trivial,
    fun _ _ => answersOneLine_zpopCommand (lit (by decide)) fun _ _ => trivial,
    fun _ _ => answersOneLine_zpopCommand (lit (by decide)) fun _ _ => trivial,
    fun _ _ => answersOneLine_windowCommand (lit (by decide)) fun _ _ _ => trivial,
    fun _ _ => answersOneLine_bounds (lit (by decide)) (lit (by decide)) (lit (by decide))
      fun _ _ _ => trivial,
    fun _ h => nomatch h⟩

end Handlers

end LoonyRedis
