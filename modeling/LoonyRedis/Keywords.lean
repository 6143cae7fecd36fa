import LoonyRedis.Connection
import LoonyRedis.Lib.Ascii
import LoonyRedis.Panics

/-!
# The case of keywords

Two vectors of arguments that differ only in the case of the command name and of option keywords
(`Recased`) are served in the same place (`Recased.route_alike`). A command name is compared in
upper case, and so are `BEFORE` and `AFTER`, `LEFT` and `RIGHT`, `WITHSCORES`, `LIMIT` and `COPY`,
so that all commands but `SET` and `ZADD` ask the same of the store (`Recased.readCommand_eq`).
Whatever tells the two vectors apart is dispatched (`Recased.caseBlind`).
-/

namespace LoonyRedis

open Ascii

/-! ## Arguments that differ in the case of keywords -/

/-- The name under which the arguments are looked up. -/
def nameOf (args : List Frame) : String := ((bulkBytes args 0).map commandName).getD ""

/-- The flags of `ZADD`. -/
def zaddWords : List String := ["NX", "XX", "GT", "LT", "CH"]

/-- The option keywords that may stand at a position of a command. -/
def keywords (name : String) (i : ℕ) : List String :=
  if name = "SET" ∧ 3 ≤ i then ["EX", "PX", "NX", "XX"]
  else if name = "ZADD" ∧ 2 ≤ i then zaddWords
  else if name = "LINSERT" ∧ i = 2 then ["BEFORE", "AFTER"]
  else if name = "LMOVE" ∧ (i = 3 ∨ i = 4) then ["LEFT", "RIGHT"]
  else if (name = "ZRANGE" ∨ name = "ZREVRANGE") ∧ 4 ≤ i then ["WITHSCORES"]
  else if (name = "ZRANGEBYSCORE" ∨ name = "ZREVRANGEBYSCORE") ∧ 4 ≤ i then
    ["WITHSCORES", "LIMIT"]
  else if name = "MIGRATE" ∧ 6 ≤ i then ["COPY"]
  else []

/-- An argument is a word, in any case. -/
def SpelledAt (word : String) (args : List Frame) (i : ℕ) : Prop :=
  ∃ b, bulkBytes args i = some b ∧ Spells b word

/-- An argument is an option keyword. Only flags stand before a flag of `ZADD`. -/
def KeywordAt (args : List Frame) (i : ℕ) (word : String) : Prop :=
  word ∈ keywords (nameOf args) i ∧ SpelledAt word args i ∧
    (nameOf args = "ZADD" → ∀ j, 2 ≤ j → j < i → ∃ w ∈ zaddWords, SpelledAt w args j)

/-- The arguments differ only in the case of the command name and of option keywords. -/
structure Recased (args args' : List Frame) : Prop where
  length : args.length = args'.length
  name : args[0]? = args'[0]? ∨ ∃ b b', bulkBytes args 0 = some b ∧ bulkBytes args' 0 = some b' ∧
    b.map Text.toAsciiUppercase = b'.map Text.toAsciiUppercase
  rest : ∀ i, 1 ≤ i → args[i]? = args'[i]? ∨
    ∃ word, KeywordAt args i word ∧ SpelledAt word args' i

/-! ## What is read in any case -/

theorem keywords_one (name : String) : keywords name 1 = [] := by simp [keywords]

/-- Every keyword is a word of letters. -/
theorem isWord_of_mem_keywords {name : String} {i : ℕ} {word : String}
    (h : word ∈ keywords name i) : IsWord word ∧ word ≠ "" := by
  have hall : ∀ w ∈ ["EX", "PX", "NX", "XX", "GT", "LT", "CH", "BEFORE", "AFTER", "LEFT", "RIGHT",
      "WITHSCORES", "LIMIT", "COPY"], IsWord w ∧ w ≠ "" := by decide
  suffices hsub : keywords name i ⊆ ["EX", "PX", "NX", "XX", "GT", "LT", "CH", "BEFORE", "AFTER",
      "LEFT", "RIGHT", "WITHSCORES", "LIMIT", "COPY"] from hall word (hsub h)
  unfold keywords
  split_ifs <;> decide

/-- Up to the case of its ASCII letters. -/
def upperPayload (f : Frame) : Option Bytes := f.payload.map (·.map Text.toAsciiUppercase)

namespace Recased

variable {args args' : List Frame} (h : Recased args args') {i start : ℕ}
include h

/-- The names of both commands are the same in upper case. -/
theorem upper_zero : (bulkBytes args 0).map (·.map Text.toAsciiUppercase) =
    (bulkBytes args' 0).map (·.map Text.toAsciiUppercase) := by
  rcases h.name with heq | ⟨b, b', hb, hb', hupper⟩
  · rw [bulkBytes, bulkBytes, heq]
  · rw [hb, hb', Option.map_some, Option.map_some, hupper]

/-- Both commands have one name. -/
theorem nameOf_eq : nameOf args = nameOf args' := by
  have hname (l : List Frame) : nameOf l = (((bulkBytes l 0).map
      (·.map Text.toAsciiUppercase)).map fun b => (Utf8.fromUtf8 (b.take 32)).getD "").getD "" := by
    rw [nameOf, Option.map_map]
    congr
    ext1 b
    rw [commandName, List.map_take]
    rfl
  rw [hname, hname, h.upper_zero]

/-- Where no keyword may stand the arguments are the same. -/
theorem getElem?_eq (hi : 1 ≤ i) (hnone : keywords (nameOf args) i = []) :
    args[i]? = args'[i]? := by
  rcases h.rest i hi with heq | ⟨word, hword, -⟩
  · exact heq
  · have hmem := hword.1
    rw [hnone] at hmem
    cases hmem

/-- An argument that is no keyword is the same in both. -/
theorem bulkBytes_eq (hi : 1 ≤ i) (hnone : keywords (nameOf args) i = []) :
    bulkBytes args i = bulkBytes args' i := by
  rw [bulkBytes, bulkBytes, h.getElem?_eq hi hnone]

/-- An argument that is no keyword is the same in both, as a text. -/
theorem bulkAsStr_eq (hi : 1 ≤ i) (hnone : keywords (nameOf args) i = []) :
    bulkAsStr args i = bulkAsStr args' i := by
  rw [bulkAsStr, bulkAsStr, h.bulkBytes_eq hi hnone]

/-- The first argument is never a keyword. -/
theorem bulkAsStr_one : bulkAsStr args 1 = bulkAsStr args' 1 :=
  h.bulkAsStr_eq (le_refl 1) (keywords_one _)

/-- The arguments at a position, if they are not the same. -/
theorem keyword (hi : 1 ≤ i) : bulkBytes args i = bulkBytes args' i ∨
    ∃ word b b', IsWord word ∧ word ≠ "" ∧ bulkBytes args i = some b ∧
      bulkBytes args' i = some b' ∧ Spells b word ∧ Spells b' word := by
  rcases h.rest i hi with heq | ⟨word, ⟨hmem, ⟨b, hb, hspells⟩, -⟩, b', hb', hspells'⟩
  · exact .inl (by rw [bulkBytes, bulkBytes, heq])
  · obtain ⟨hword, hne⟩ := isWord_of_mem_keywords hmem
    exact .inr ⟨word, b, b', hword, hne, hb, hb', hspells, hspells'⟩

/-- In upper case, every argument is the same in both. -/
theorem toUppercase_eq (hi : 1 ≤ i) :
    (bulkAsStr args i).map Text.toUppercase = (bulkAsStr args' i).map Text.toUppercase := by
  rw [bulkAsStr, bulkAsStr]
  rcases h.keyword hi with heq | ⟨word, b, b', hword, -, hb, hb', hspells, hspells'⟩
  · rw [heq]
  · rw [hb, hb', Option.map_some, Option.map_some, Option.map_some, Option.map_some,
      hspells.toUppercase hword, hspells'.toUppercase hword]

/-- No keyword is a number. -/
theorem bulkAsI64_eq (hi : 1 ≤ i) : bulkAsI64 args i = bulkAsI64 args' i := by
  rw [bulkAsI64, bulkAsI64]
  rcases h.keyword hi with heq | ⟨word, b, b', hword, hne, hb, hb', hspells, hspells'⟩
  · rw [heq]
  · rw [hb, hb', Option.bind_some, Option.bind_some, hspells.parseI64 hword hne,
      hspells'.parseI64 hword hne]

/-- In upper case, the rest of the arguments is the same in both. -/
theorem drop_upperPayload (hstart : 1 ≤ start) :
    (args.drop start).map upperPayload = (args'.drop start).map upperPayload := by
  refine List.ext_getElem? fun j => ?_
  rw [List.getElem?_map, List.getElem?_map, List.getElem?_drop, List.getElem?_drop]
  rcases h.rest (start + j) (by omega) with
    heq | ⟨word, ⟨-, ⟨b, hb, hspells⟩, -⟩, b', hb', hspells'⟩
  · rw [heq]
  · obtain ⟨f, hf, hfb⟩ := Option.bind_eq_some_iff.mp hb
    obtain ⟨f', hf', hfb'⟩ := Option.bind_eq_some_iff.mp hb'
    rw [hf, hf', Option.map_some, Option.map_some, upperPayload, upperPayload, hfb, hfb',
      Option.map_some, Option.map_some, hspells, hspells']

/-- A keyword that is compared byte by byte. -/
theorem any_upper (hstart : 1 ≤ start) (word : Bytes) :
    ((args.drop start).any fun f => f.payload.any fun b => b.map Text.toAsciiUppercase = word) =
      (args'.drop start).any fun f => f.payload.any fun b =>
        b.map Text.toAsciiUppercase = word := by
  have hmap (l : List Frame) : (l.any fun f => f.payload.any fun b =>
      b.map Text.toAsciiUppercase = word) = (l.map upperPayload).any fun o => o.any (· = word) := by
    rw [List.any_map]
    congr 1
    ext f : 1
    rw [Function.comp_apply, upperPayload]
    cases f.payload <;> rfl
  rw [hmap, hmap, h.drop_upperPayload hstart]

/-- `WITHSCORES` is found in any case. -/
theorem hasWithscores_eq (hstart : 1 ≤ start) :
    hasWithscores args start = hasWithscores args' start :=
  h.any_upper hstart _

/-- `LIMIT` is found in any case, with the same numbers behind it. -/
theorem parseLimit_eq (hstart : 1 ≤ start) : parseLimit args start = parseLimit args' start := by
  have hlimit : (fun i => decide (start ≤ i) &&
      decide ((bulkAsStr args i).map Text.toUppercase = some "LIMIT")) = fun i =>
      decide (start ≤ i) && decide ((bulkAsStr args' i).map Text.toUppercase = some "LIMIT") := by
    ext i
    by_cases hi : start ≤ i
    · rw [h.toUppercase_eq (by omega)]
    · rw [decide_eq_false hi, Bool.false_and, Bool.false_and]
  rw [parseLimit, parseLimit, hlimit, h.length]
  split
  · rw [h.bulkAsI64_eq (by omega), h.bulkAsI64_eq (by omega)]
  · rfl

end Recased

/-! ## Handlers -/

/-- What follows the reading of a text looks at its upper case only. -/
theorem strArg_bind_congr {args args' : List Frame} {i : ℕ} {cmd : String} {k k' : String → Reading}
    (harg : (bulkAsStr args i).map Text.toUppercase = (bulkAsStr args' i).map Text.toUppercase)
    (hk : ∀ x y, Text.toUppercase x = Text.toUppercase y → k x = k' y) :
    (strArg args i cmd >>= k) = strArg args' i cmd >>= k' := by
  rw [strArg, strArg]
  cases hx : bulkAsStr args i with
  | none =>
    rw [hx, Option.map_none, eq_comm, Option.map_eq_none_iff] at harg
    rw [harg]
    rfl
  | some x =>
    rw [hx, Option.map_some, eq_comm, Option.map_eq_some_iff] at harg
    obtain ⟨y, hy, hupper⟩ := harg
    rw [hy]
    exact hk x y hupper.symm

/-- What the handlers of `ZRANGE` and `ZREVRANGE` read. -/
theorem windowCommand_congr {cmd : String} {req req' : String → ℤ → ℤ → Request} {arity : ℕ → Bool}
    {args args' : List Frame} (hlen : args.length = args'.length)
    (hkey : bulkAsStr args 1 = bulkAsStr args' 1)
    (hstart : bulkAsI64 args 2 = bulkAsI64 args' 2) (hstop : bulkAsI64 args 3 = bulkAsI64 args' 3)
    (hreq : req = req') :
    windowCommand cmd req arity args = windowCommand cmd req' arity args' := by
  rw [windowCommand, windowCommand, hlen, strArg, strArg, hkey, intArg, intArg, hstart, intArg,
    intArg, hstop, hreq]

namespace Recased

variable {args args' : List Frame} (h : Recased args args')
include h

theorem strArg_eq {i : ℕ} (hi : 1 ≤ i) (hnone : keywords (nameOf args) i = []) (cmd : String) :
    strArg args i cmd = strArg args' i cmd := by
  rw [strArg, strArg, h.bulkAsStr_eq hi hnone]

theorem bytesArg_eq {i : ℕ} (hi : 1 ≤ i) (hnone : keywords (nameOf args) i = []) (cmd : String) :
    bytesArg args i cmd = bytesArg args' i cmd := by
  rw [bytesArg, bytesArg, h.bulkBytes_eq hi hnone]

theorem boundArg_eq {i : ℕ} (hi : 1 ≤ i) (hnone : keywords (nameOf args) i = []) (msg : String) :
    boundArg args i msg = boundArg args' i msg := by
  rw [boundArg, boundArg, h.bulkAsStr_eq hi hnone]

/-- `LINSERT` reads `BEFORE` and `AFTER` in any case. -/
theorem cmdLinsert_eq (hname : nameOf args = "LINSERT") : cmdLinsert args = cmdLinsert args' := by
  have hnone {i : ℕ} (hi : i ≠ 2) : keywords (nameOf args) i = [] := by simp [keywords, hname, hi]
  rw [cmdLinsert, cmdLinsert, h.length, h.strArg_eq (le_refl 1) (hnone (by decide))]
  refine bind_congr fun _ => bind_congr fun key =>
    strArg_bind_congr (h.toUppercase_eq (by decide)) fun x y hxy => ?_
  rw [h.bytesArg_eq (by decide) (hnone (i := 3) (by decide)),
    h.bytesArg_eq (by decide) (hnone (i := 4) (by decide)), LoonyRedis.keyword,
    LoonyRedis.keyword, hxy]

/-- `LMOVE` reads `LEFT` and `RIGHT` in any case. -/
theorem cmdLmove_eq (hname : nameOf args = "LMOVE") : cmdLmove args = cmdLmove args' := by
  have hnone : keywords (nameOf args) 2 = [] := by simp [keywords, hname]
  rw [cmdLmove, cmdLmove, h.length, h.strArg_eq (le_refl 1) (keywords_one _),
    h.strArg_eq (by decide) hnone]
  refine bind_congr fun _ => bind_congr fun src => bind_congr fun dst =>
    strArg_bind_congr (h.toUppercase_eq (by decide)) fun x y hxy =>
      strArg_bind_congr (h.toUppercase_eq (by decide)) fun x' y' hxy' => ?_
  rw [LoonyRedis.keyword, LoonyRedis.keyword, LoonyRedis.keyword, LoonyRedis.keyword, hxy, hxy']

/-- `ZRANGE` reads `WITHSCORES` in any case. -/
theorem cmdZrange_eq : cmdZrange args = cmdZrange args' := by
  rw [cmdZrange, cmdZrange, h.hasWithscores_eq (by decide)]
  exact windowCommand_congr h.length h.bulkAsStr_one
    (h.bulkAsI64_eq (by decide)) (h.bulkAsI64_eq (by decide)) rfl

theorem cmdZrevrange_eq : cmdZrevrange args = cmdZrevrange args' := by
  rw [cmdZrevrange, cmdZrevrange, h.hasWithscores_eq (by decide)]
  exact windowCommand_congr h.length h.bulkAsStr_one
    (h.bulkAsI64_eq (by decide)) (h.bulkAsI64_eq (by decide)) rfl

/-- `ZRANGEBYSCORE` reads `WITHSCORES` and `LIMIT` in any case. -/
theorem cmdZrangebyscore_eq (hname : nameOf args = "ZRANGEBYSCORE") :
    cmdZrangebyscore args = cmdZrangebyscore args' := by
  have hnone {i : ℕ} (hi : i < 4) : keywords (nameOf args) i = [] := by simp [keywords, hname, hi]
  rw [cmdZrangebyscore, cmdZrangebyscore, h.length, h.strArg_eq (le_refl 1) (keywords_one _),
    h.boundArg_eq (by decide) (hnone (i := 2) (by decide)),
    h.boundArg_eq (by decide) (hnone (i := 3) (by decide)), h.parseLimit_eq (by decide),
    h.hasWithscores_eq (by decide)]

theorem cmdZrevrangebyscore_eq (hname : nameOf args = "ZREVRANGEBYSCORE") :
    cmdZrevrangebyscore args = cmdZrevrangebyscore args' := by
  have hnone {i : ℕ} (hi : i < 4) : keywords (nameOf args) i = [] := by simp [keywords, hname, hi]
  rw [cmdZrevrangebyscore, cmdZrevrangebyscore, h.length,
    h.strArg_eq (le_refl 1) (keywords_one _),
    h.boundArg_eq (by decide) (hnone (i := 2) (by decide)),
    h.boundArg_eq (by decide) (hnone (i := 3) (by decide)), h.parseLimit_eq (by decide),
    h.hasWithscores_eq (by decide)]

end Recased

/-- The commands with option keywords. -/
def keywordCommands : List String :=
  ["SET", "ZADD", "LINSERT", "LMOVE", "ZRANGE", "ZREVRANGE", "ZRANGEBYSCORE", "ZREVRANGEBYSCORE",
    "MIGRATE"]

/-- Most commands have no keywords. -/
theorem keywords_of_not_mem {name : String} (hname : name ∉ keywordCommands) (i : ℕ) :
    keywords name i = [] := by
  simp only [keywordCommands, List.mem_cons, List.not_mem_nil, or_false, not_or] at hname
  simp [keywords, hname]

/-- No handler looks at the command name. -/
theorem commandTable_cons (ctx : CommandContext) (f f' : Frame) (rest : List Frame) :
    ∀ p ∈ commandTable ctx, p.1 ∉ keywordCommands → p.2 (f :: rest) = p.2 (f' :: rest) := by
  simp only [commandTable, List.forall_mem_cons]
  repeat' first
    | exact fun h => absurd (by decide) h
    | exact fun _ => rfl
    | exact fun _ => True.intro
    | exact fun _ h => absurd h List.not_mem_nil
    | refine ⟨?_, ?_⟩

namespace Recased

variable {args args' : List Frame} (h : Recased args args')
include h

/-- Only the command name differs where no option keyword may stand. -/
theorem tail_eq (hnone : ∀ i, keywords (nameOf args) i = []) : args.tail = args'.tail := by
  refine List.ext_getElem? fun i => ?_
  rw [List.getElem?_tail, List.getElem?_tail]
  exact h.getElem?_eq (by omega) (hnone _)

/-- Without keywords, the commands differ in their names only. -/
theorem cons_or_nil (hnone : ∀ i, keywords (nameOf args) i = []) : args = args' ∨
    ∃ f f' rest, args = f :: rest ∧ args' = f' :: rest := by
  have htail := h.tail_eq hnone
  have hlen := h.length
  cases args with
  | nil => exact .inl (List.eq_nil_of_length_eq_zero hlen.symm).symm
  | cons f rest =>
    obtain ⟨f', rest', rfl⟩ := List.exists_cons_of_length_eq_add_one hlen.symm
    obtain rfl : rest = rest' := htail
    exact .inr ⟨f, f', rest, rfl, rfl⟩

/-- Both commands are read alike, but for `SET` and `ZADD`. -/
theorem readCommand_eq (hset : nameOf args ≠ "SET") (hzadd : nameOf args ≠ "ZADD")
    (ctx : CommandContext) :
    readCommand ctx (nameOf args) args = readCommand ctx (nameOf args) args' := by
  by_cases hmem : nameOf args ∈ keywordCommands
  · simp only [keywordCommands, List.mem_cons, List.not_mem_nil, or_false, hset, hzadd,
      false_or] at hmem
    rcases hmem with hname | hname | hname | hname | hname | hname | hname
    · rw [hname]
      exact h.cmdLinsert_eq hname
    · rw [hname]
      exact h.cmdLmove_eq hname
    · rw [hname]
      exact h.cmdZrange_eq
    · rw [hname]
      exact h.cmdZrevrange_eq
    · rw [hname]
      exact h.cmdZrangebyscore_eq hname
    · rw [hname]
      exact h.cmdZrevrangebyscore_eq hname
    · rw [hname]
      rfl
  · rw [readCommand, readCommand]
    cases hlookup : (commandTable ctx).lookup (nameOf args) with
    | none => rfl
    | some handler =>
      obtain ⟨l, l', hl, -⟩ := List.lookup_eq_some_iff.mp hlookup
      have htable : (nameOf args, handler) ∈ commandTable ctx := by rw [hl]; simp
      rcases h.cons_or_nil (keywords_of_not_mem hmem) with rfl | ⟨f, f', rest, rfl, rfl⟩
      · rfl
      · exact commandTable_cons ctx f f' rest _ htable hmem

/-- `MIGRATE` has no keywords. -/
theorem cmdMigrate_eq (hname : nameOf args = "MIGRATE") (rpc : Rpc) (env : Env) (me : String)
    (s : Store) (w : World) : cmdMigrate rpc env me args s w = cmdMigrate rpc env me args' s w := by
  have hnone {i : ℕ} (hi : i < 6) : keywords (nameOf args) i = [] := by
    simp only [keywords, hname]
    simp [hi]
  rw [cmdMigrate, cmdMigrate, h.length, h.bulkAsStr_one,
    h.bulkAsStr_eq (i := 2) (by decide) (hnone (by decide)),
    h.bulkAsStr_eq (i := 3) (by decide) (hnone (by decide)), h.any_upper (by decide)]

/-- `CLUSTER` reads its subcommand in any case. -/
theorem cmdCluster_eq (hname : nameOf args = "CLUSTER") (rpc : Rpc) (env : Env) (me : String)
    (cfg : ClusterConfig) (rows : List (String × NodeState)) (w : World) :
    cmdCluster rpc env me cfg args rows w = cmdCluster rpc env me cfg args' rows w := by
  have hmem : nameOf args ∉ keywordCommands := by
    rw [hname]
    decide
  rcases h.cons_or_nil (keywords_of_not_mem hmem) with rfl | ⟨f, f', rest, rfl, rfl⟩
  · rfl
  · rfl

theorem cmdClusterDisabled_eq (hname : nameOf args = "CLUSTER")
    (health : Option (List (String × NodeState))) :
    cmdClusterDisabled health args = cmdClusterDisabled health args' := by
  have hmem : nameOf args ∉ keywordCommands := by
    rw [hname]
    decide
  rcases h.cons_or_nil (keywords_of_not_mem hmem) with rfl | ⟨f, f', rest, rfl, rfl⟩
  · rfl
  · rfl

/-- A replica asks for its copy in any case. -/
theorem isSyncCommand_eq :
    isSyncCommand (.array (some args)) = isSyncCommand (.array (some args')) := by
  have hsync (l : List Frame) : isSyncCommand (.array (some l)) =
      ((bulkBytes l 0).map (·.map Text.toAsciiUppercase)).any (· = Utf8.toBytes "SYNC") := by
    cases l with
    | nil => rfl
    | cons f rest =>
      cases f with
      | bulk b => cases b <;> rfl
      | _ => rfl
  rw [hsync, hsync, h.upper_zero]

end Recased

/-! ## Routing -/

section Routing

variable {args args' : List Frame}

/-- The slots of the keys are the same in both. -/
theorem strideSlots_congr (hlen : args.length = args'.length)
    (harg : ∀ i, 1 ≤ i → bulkBytes args i = bulkBytes args' i) (stride : ℕ) :
    strideSlots args 1 stride = strideSlots args' 1 stride := by
  have hslot : (fun i => if 1 ≤ i ∧ (i - 1) % stride = 0 then (bulkBytes args i).map slotForKey
      else none) = fun i => if 1 ≤ i ∧ (i - 1) % stride = 0 then (bulkBytes args' i).map slotForKey
      else none := by
    ext1 i
    by_cases hi : 1 ≤ i
    · rw [harg i hi]
    · rw [if_neg fun h => hi h.1, if_neg fun h => hi h.1]
  rw [strideSlots, strideSlots, hlen, hslot]

/-- The keys are no keywords. -/
theorem Recased.commandSlot_eq (h : Recased args args') :
    commandSlot (nameOf args) args = commandSlot (nameOf args) args' := by
  unfold commandSlot
  split
  · rw [singleKeySlot, singleKeySlot, h.bulkBytes_eq (le_refl 1) (keywords_one _)]
  · next hsingle =>
    have hkeys (hmem : nameOf args ∈ ["DEL", "UNLINK", "EXISTS", "MGET"] ∨
        nameOf args ∈ ["MSET", "MSETNX"]) (i : ℕ) (hi : 1 ≤ i) :
        bulkBytes args i = bulkBytes args' i := by
      refine h.bulkBytes_eq hi (keywords_of_not_mem (fun hname => ?_) i)
      have hdisjoint : ∀ c ∈ keywordCommands, ¬ (c ∈ ["DEL", "UNLINK", "EXISTS", "MGET"] ∨
          c ∈ ["MSET", "MSETNX"]) := by decide
      exact hdisjoint _ hname hmem
    split
    · next hmem =>
      rw [allSameSlot, allSameSlot, strideSlots_congr h.length (hkeys (.inl hmem))]
    · split
      · next hmem =>
        rw [allSameSlot, allSameSlot, strideSlots_congr h.length (hkeys (.inr hmem))]
      · rfl

/-- The same decision about two commands of one name. -/
inductive Route.Alike (name : String) (args args' : List Frame) : Route → Route → Prop
  | reply (f : Frame) : Alike name args args' (.reply f) (.reply f)
  | propose : Alike name args args' (.propose args) (.propose args')
  | proxy (target : String) : Alike name args args' (.proxy target args) (.proxy target args')
  | remote (hname : name = "CLUSTER" ∨ name = "MIGRATE") :
    Alike name args args' (.remote name args) (.remote name args')
  | dispatch : Alike name args args' (.dispatch name args) (.dispatch name args')

/-- The decision of this node is the same for both. -/
theorem routeHere_alike (ctx : CommandContext) (name : String) (args args' : List Frame) :
    Route.Alike name args args' (routeHere ctx name args) (routeHere ctx name args') := by
  unfold routeHere
  split
  · exact .reply _
  · split
    · next hname => exact .remote hname
    · exact .dispatch

/-- The decision of the cluster is the same for both. -/
theorem clusterRoute_alike {cfg : ClusterConfig} {name : String} {r r' : Route}
    (hslot : commandSlot name args = commandSlot name args')
    (hhere : Route.Alike name args args' r r') :
    Route.Alike name args args' ((clusterRoute cfg name args).getD r)
      ((clusterRoute cfg name args').getD r') := by
  unfold clusterRoute
  rw [hslot]
  split
  · exact .reply _
  · split
    · exact hhere
    · exact .proxy _
  · exact hhere

/-- Both commands take the same way. -/
theorem routeCommand_alike (ctx : CommandContext) {name : String}
    (hslot : commandSlot name args = commandSlot name args') :
    Route.Alike name args args' (routeCommand ctx name args) (routeCommand ctx name args') := by
  have hhere := routeHere_alike ctx name args args'
  unfold routeCommand
  split
  · split
    · exact .propose
    · exact .reply _
  · split
    · exact hhere
    · exact clusterRoute_alike hslot hhere
  · exact hhere

/-- Commands that differ in the case of keywords are served in the same place. -/
theorem Recased.route_alike (h : Recased args args') (ctx : CommandContext) :
    Route.Alike (nameOf args) args args' (route ctx (.array (some args)))
      (route ctx (.array (some args'))) := by
  have hroute {f : Frame} {rest : List Frame} : route ctx (.array (some (f :: rest))) =
      if (bulkBytes (f :: rest) 0).isSome then routeCommand ctx (nameOf (f :: rest)) (f :: rest)
      else .reply (.error "ERR invalid command name") := by
    simp only [route, nameOf]
    cases bulkBytes (f :: rest) 0 <;> rfl
  have hname := h.nameOf_eq
  have hzero := congrArg Option.isSome h.upper_zero
  rw [Option.isSome_map, Option.isSome_map] at hzero
  have halike := routeCommand_alike ctx h.commandSlot_eq
  have hlen := h.length
  cases args with
  | nil =>
    rw [List.eq_nil_of_length_eq_zero hlen.symm]
    exact .reply _
  | cons f rest =>
    obtain ⟨f', rest', rfl⟩ := List.exists_cons_of_length_eq_add_one hlen.symm
    rw [hroute, hroute, ← hzero, ← hname]
    split
    · exact halike
    · exact .reply _

end Routing

/-! ## Execution -/

/-- The same happening with another command in the frame. -/
def Handling.withArgs (h : Handling) (args : List Frame) : Handling :=
  { h with frame := .array (some args) }

/-- Two commands have the same reply, and leave the same behind : on any node, provided that the
other nodes do not tell them apart, and on any cluster of nodes that pass them on to each other. -/
structure CaseBlind (args args' : List Frame) : Prop where
  execute : ∀ (h : Handling) (s : Server),
    (∀ addr, h.net addr (.array (some args)) = h.net addr (.array (some args'))) →
      (h.withArgs args).execute s = (h.withArgs args').execute s
  serve : ∀ (E : ClusterEnv) (depth : ℕ) (a : String) (w : World),
    serve E depth a (.array (some args)) w = serve E depth a (.array (some args')) w
  sync : isSyncCommand (.array (some args)) = isSyncCommand (.array (some args'))

/-- The same reply and the same store. -/
def Outcome.Alike (o o' : Outcome) : Prop := o.reply = o'.reply ∧ o.store = o'.store

namespace Outcome.Alike

variable {o o' o'' : Outcome}

theorem symm (h : o.Alike o') : o'.Alike o := ⟨h.1.symm, h.2.symm⟩

theorem trans (h : o.Alike o') (h' : o'.Alike o'') : o.Alike o'' :=
  ⟨h.1.trans h'.1, h.2.trans h'.2⟩

end Outcome.Alike

section Execution

variable {args args' : List Frame}

theorem Recased.remote_eq (h : Recased args args')
    (hname : nameOf args = "CLUSTER" ∨ nameOf args = "MIGRATE") (x : Handling) (s : Server) :
    x.remote s (nameOf args) args = x.remote s (nameOf args) args' := by
  unfold Handling.remote
  rcases hname with hname | hname
  · rw [if_pos hname, if_pos hname, h.cmdClusterDisabled_eq hname]
    cases s.cluster with
    | none => rfl
    | some cfg => simp only [h.cmdCluster_eq hname]
  · have hne : nameOf args ≠ "CLUSTER" := by
      rw [hname]
      decide
    rw [if_neg hne, if_neg hne, h.cmdMigrate_eq hname]

/-- Commands are told apart by what is dispatched only. -/
theorem Recased.caseBlind (h : Recased args args')
    (hdispatch : ∀ ctx env s, (dispatch ctx env (nameOf args) args s).Alike
      (dispatch ctx env (nameOf args) args' s)) : CaseBlind args args' where
  sync := h.isSyncCommand_eq
  execute x s hnet := by
    have hroute := h.route_alike (x.context s)
    unfold Handling.execute
    change Route.Alike _ _ _ (route ((x.withArgs args).context s) (x.withArgs args).frame)
      (route ((x.withArgs args').context s) (x.withArgs args').frame) at hroute
    generalize route ((x.withArgs args).context s) (x.withArgs args).frame = r at hroute
    generalize route ((x.withArgs args').context s) (x.withArgs args').frame = r' at hroute
    cases hroute with
    | reply f => rfl
    | propose => rfl
    | proxy target =>
      change ((x.net target (.array (some args))).answer.getD
        ((x.net target (.array (some args))).proxyError target), s) = _
      rw [hnet]
      rfl
    | remote hname => exact h.remote_eq hname x s
    | dispatch =>
      obtain ⟨hreply, hstore⟩ := hdispatch (x.context s) x.env s.store
      exact Prod.ext hreply (congrArg (Server.mk · s.cluster) hstore)
  serve E := by
    intro depth
    induction depth with
    | zero => exact fun _ _ => rfl
    | succ depth ih =>
      intro a w
      unfold LoonyRedis.serve
      cases w a with
      | none => rfl
      | some n =>
        have hroute := h.route_alike (nodeContext n.config)
        dsimp only
        generalize route (nodeContext n.config) (.array (some args)) = r at hroute
        generalize route (nodeContext n.config) (.array (some args')) = r' at hroute
        cases hroute with
        | reply f => rfl
        | propose => rfl
        | proxy target => exact ih target w
        | remote hname =>
          dsimp only
          split
          · next hcluster => rw [h.cmdCluster_eq hcluster]
          · next hcluster => rw [h.cmdMigrate_eq (hname.resolve_left hcluster)]
        | dispatch =>
          obtain ⟨hreply, hstore⟩ := hdispatch (nodeContext n.config) (E.env a) n.store
          exact Prod.ext hreply (congrArg (w.setStore a) hstore)

end Execution

end LoonyRedis
