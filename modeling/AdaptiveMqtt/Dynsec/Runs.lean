import AdaptiveMqtt.Dynsec.Commands
import AdaptiveMqtt.Dynsec.View

/-!
# Runs

The stores that control messages and restarts lead to. In a linked store every command and every
query has a result; in a store that is reached this way the commands after it have one too, the
store can be saved, and the check of a topic reads no freed memory.
-/

namespace AdaptiveMqtt.Dynsec

open Lib Security Links Store

variable {s s' : Store} {c g r : Addr} {client : Client} {group : Group} {role : Role}
  {P : Kind} {crypto : Crypto} {rand : Bytes} {json : Json} {correlationData : Option Bytes}
  {base : List Ref}

section Runs

/-! ## Queries of a linked store -/

theorem grouplistAllToJson_eq (h : ∀ e ∈ base, ∃ group, s.localGroups.get e.addr = some group ∧
    group.groupname = e.name) :
    grouplistAllToJson s base = some (.array (refsJson "groupname" base)) := by
  have hread : ∀ e ∈ base, ((s.localGroups.get e.addr).bind fun group => some (Json.object
      ([(ascii "groupname", .string group.groupname)] ++ priorityField (priority e)))) =
      some (.object ([(ascii "groupname", .string e.name)] ++ priorityField (priority e))) := by
    intro e he
    obtain ⟨group, hg, hname⟩ := h e he
    rw [hg, Option.bind_some, hname]
  unfold grouplistAllToJson
  exact congrArg (Option.bind · _) (Loop.mapM_eq hread)

theorem addClientToJson_some (h : s.Linked) (hc : s.localClients.get c = some client)
    (verbose : Bool) : ∃ json, addClientToJson s verbose client = some json := by
  unfold addClientToJson
  cases verbose with
  | false => exact ⟨_, rfl⟩
  | true =>
    rw [rolelistAllToJson_eq fun e he => h.roleOfClient hc he,
      grouplistAllToJson_eq fun e he => h.groupOfClient hc he]
    exact ⟨_, rfl⟩

theorem addGroupToJson_some (h : s.Linked) (hg : s.localGroups.get g = some group)
    (verbose : Bool) : ∃ json, addGroupToJson s verbose group = some json := by
  unfold addGroupToJson
  cases verbose with
  | false => exact ⟨_, rfl⟩
  | true =>
    have hread : ∀ e ∈ group.clientlist, ((s.localClients.get e.addr).bind fun client =>
        some (Json.object [(ascii "username", .string client.username)])) =
        some (.object [(ascii "username", .string e.name)]) := by
      intro e he
      obtain ⟨client, hc, hname⟩ := h.clientOfGroup hg he
      rw [hc, ← hname]
      rfl
    rw [rolelistAllToJson_eq fun e he => h.roleOfGroup hg he]
    exact ⟨_, congrArg (Option.bind · _) (Loop.mapM_eq hread)⟩

/-- The loop over a table reads every object it comes to. -/
theorem listLoop_some {α : Type} {read : α → Option Json} {l : List α}
    (h : ∀ v ∈ l, ∃ json, read v = some json) (offset : Int32) (i count : Int) :
    ∃ items, listLoop read offset l i count = some items := by
  induction l generalizing i count with
  | nil => exact ⟨_, rfl⟩
  | cons v l ih =>
    obtain ⟨⟨json, hv⟩, hl⟩ := List.forall_mem_cons.mp h
    unfold listLoop
    split
    · simp only [hv, Option.bind_eq_bind, Option.bind_some]
      split
      · split
        · exact ⟨_, rfl⟩
        · obtain ⟨items, hitems⟩ := ih hl (i + 1) (count - 1)
          rw [hitems]
          exact ⟨_, rfl⟩
      · obtain ⟨items, hitems⟩ := ih hl (i + 1) count
        rw [hitems]
        exact ⟨_, rfl⟩
    · exact ih hl (i + 1) count

theorem listData_some [JsonLibrary] {α : Type} {t : Table Addr α} {read : α → Option Json}
    (h : ∀ a v, t.get a = some v → ∃ json, read v = some json) (name : String) (json : Json) :
    ∃ data, listData name t read json = some data := by
  have hall : ∀ v ∈ t.entries.map Prod.snd, ∃ json, read v = some json := by
    intro v hv
    obtain ⟨e, he, rfl⟩ := List.mem_map.mp hv
    exact h e.1 e.2 (Table.mem_entries he)
  obtain ⟨items, hitems⟩ := listLoop_some hall (json.getInt "offset" 0) 0
    (json.getInt "count" (-1)).toInt
  unfold listData
  rw [hitems]
  exact ⟨_, rfl⟩

theorem readOne_some {α : Type} {name : Except (Rc × String) Bytes}
    {find : Bytes → Option (Addr × α)} {read : α → Option Json}
    (h : ∀ key a v, find key = some (a, v) → ∃ json, read v = some json) (missing : Rc × String)
    (field : String) : ∃ reply, Query.readOne name find missing field read = some reply := by
  unfold Query.readOne
  cases name with
  | error e => exact ⟨_, rfl⟩
  | ok name =>
    simp only
    cases hf : find name with
    | none => exact ⟨_, rfl⟩
    | some found =>
      obtain ⟨data, hdata⟩ := h name found.1 found.2 hf
      simp only [hdata, Option.map_some]
      exact ⟨_, rfl⟩

variable [JsonLibrary]

/-- A query of a linked store has a reply. -/
theorem query_some (h : s.Linked) (json : Json) (query : Query) :
    ∃ reply, query.process json s = some reply := by
  have hlist : ∀ {x : Option Json}, (∃ data, x = some data) →
      ∃ reply : Except (Rc × String) Json, x.map .ok = some reply := by
    rintro x ⟨data, rfl⟩
    exact ⟨_, rfl⟩
  cases query with
  | getDefaultACLAccess => exact ⟨_, rfl⟩
  | getClient =>
    exact readOne_some (fun _ _ _ hf => addClientToJson_some h (clientsFind_some hf).1 true) _ _
  | listClients =>
    exact hlist (listData_some (fun _ _ hc => addClientToJson_some h hc _) "clients" json)
  | getGroup =>
    exact readOne_some (fun _ _ _ hf => addGroupToJson_some h (groupsFind_some hf).1 true) _ _
  | listGroups =>
    exact hlist (listData_some (fun _ _ hg => addGroupToJson_some h hg _) "groups" json)
  | getAnonymousGroup =>
    unfold Query.process
    cases hanon : s.dynsecAnonymousGroup with
    | none => exact ⟨_, rfl⟩
    | some g =>
      obtain ⟨group, hg⟩ := Table.live_iff.mp (h.anonymous g hanon)
      simp only [hg, Option.map_some]
      exact ⟨_, rfl⟩
  | getRole => exact readOne_some (fun _ _ _ _ => ⟨_, rfl⟩) _ _
  | listRoles => exact hlist (listData_some (fun _ _ _ => ⟨_, rfl⟩) "roles" json)

/-! ## Elements of a control message -/

/-- The command that changes something an element stands for. -/
def Json.commandOf (json : Json) : Option Command :=
  match json.getString "command" false with
  | (0, some command) => Command.all.find? fun c => sameIgnoringCase command (ascii c.text)
  | _ => none

/-- An element whose command keeps the lists of both ends together, with priorities and passwords
of a kind. -/
structure Good (P : Kind) (crypto : Crypto) (s : Store) (rand : Bytes) (json : Json) : Prop where
  mild : ∀ command, json.commandOf = some command → Mild s json command
  reads : P.Reads json
  sets : P.Sets crypto rand

/-- Those whose rights an element may change without a kick. -/
def UnkickedBy (s : Store) (json : Json) (u : Option Bytes) : Prop :=
  ∃ command, json.commandOf = some command ∧ Unkicked s json u command

theorem effects_some (crypto : Crypto) {result : Result} (h : result.store.Linked)
    (command : Bytes) (correlationData : Option Bytes) : ∃ effects,
      result.effects crypto command correlationData = some effects ∧
      ∀ u ∈ result.kicks, Effect.kick u ∈ effects := by
  unfold Result.effects
  rw [configSave_eq h]
  cases result.saved with
  | false => exact ⟨_, rfl, fun u hu => List.mem_append_right _ (List.mem_map_of_mem hu)⟩
  | true => exact ⟨_, rfl, fun u hu => List.mem_append_right _ (List.mem_map_of_mem hu)⟩

theorem handleNamed_edits (h : s.Linked) (hgood : Good P crypto s rand json) {command : Bytes}
    (hname : json.getString "command" false = (0, some command))
    (correlationData : Option Bytes) :
    ∃ turn, handleNamed crypto rand command json correlationData s = some turn ∧
      Edits (fun u => Effect.kick u ∈ turn.effects ∨ UnkickedBy s json u) P s turn.store := by
  have hcommand : json.commandOf =
      Command.all.find? fun c => sameIgnoringCase command (ascii c.text) := by
    unfold Json.commandOf
    rw [hname]
    rfl
  unfold handleNamed
  cases hc : Command.all.find? fun c => sameIgnoringCase command (ascii c.text) with
  | some c =>
    have hof := hcommand.trans hc
    obtain ⟨result, hresult, hedits⟩ := process_edited h hgood.reads hgood.sets c (hgood.mild c hof)
    obtain ⟨effects, heffects, hkicks⟩ := effects_some crypto (linked_edits h hedits)
      (ascii c.text) correlationData
    simp only [hresult, heffects, Option.bind_eq_bind, Option.bind_some]
    refine ⟨_, rfl, hedits.mono fun u hu => ?_⟩
    exact hu.imp (hkicks u) fun hu => ⟨c, hof, hu⟩
  | none =>
    simp only
    cases Query.all.find? fun q => sameIgnoringCase command (ascii q.text) with
    | none => exact ⟨_, rfl, .refl⟩
    | some q =>
      obtain ⟨reply, hreply⟩ := query_some h json q
      simp only [hreply, Option.bind_eq_bind, Option.bind_some]
      cases reply with
      | error e => exact ⟨_, rfl, .refl⟩
      | ok data => exact ⟨_, rfl, .refl⟩

/-- **A good element of a linked store makes edits**, and reads no freed memory. -/
theorem handleCommand_edits (h : s.Linked) (hgood : Good P crypto s rand json)
    (correlationData : Option Bytes) :
    ∃ turn, handleCommand crypto rand json correlationData s = some turn ∧
      Edits (fun u => Effect.kick u ∈ turn.effects ∨ UnkickedBy s json u) P s turn.store := by
  unfold handleCommand
  simp only
  split
  · exact ⟨_, rfl, .refl⟩
  · split
    · rename_i command hname
      split
      · exact handleNamed_edits h hgood hname _
      · exact ⟨_, rfl, .refl⟩
    · exact ⟨_, rfl, .refl⟩

/-! ## What is reached -/

/-- The elements of a message, each of them good when its turn comes. -/
def GoodAll (P : Kind) (crypto : Crypto) : List (Bytes × Json) → Option Bytes → Store → Prop
  | [], _, _ => True
  | (rand, json) :: rest, correlationData, s => Good P crypto s rand json ∧
    ∀ turn, handleCommand crypto rand json correlationData s = some turn → turn.goesOn = true →
      GoodAll P crypto rest turn.correlationData turn.store

/-- `cJSON_Parse` reads the file the store is saved to as the tree that was printed. -/
def ReadsBack (crypto : Crypto) (s : Store) : Prop := ∀ tree, configSaveTree crypto s = some tree →
  JsonLibrary.print tree ≠ [] ∧ JsonLibrary.parse (JsonLibrary.print tree) = some tree

/-- The stores that good elements and restarts lead to. -/
inductive Reached (crypto : Crypto) (P : Kind) : Store → Prop
  | init : Reached crypto P Store.init
  | turn {s rand json correlationData turn} : Reached crypto P s → Good P crypto s rand json →
      handleCommand crypto rand json correlationData s = some turn → Reached crypto P turn.store
  | restart {s file x} : Reached crypto P s → ReadsBack crypto s →
      configSave crypto s = some file → configLoad crypto file Store.init = some x →
      Reached crypto P x

/-- What the commands bring in can be saved: priorities lie close together, passwords have the
sizes that are loaded, and base64 gives back what it encoded. -/
structure Kind.Savable (P : Kind) (crypto : Crypto) : Prop where
  close : P.Close
  whole : ∀ pw, P.pw pw → pw.Whole
  faithful : crypto.Faithful

variable [LawfulJsonLibrary]

/-- A linked store in order that is saved and loaded is one again, and shows the same. -/
theorem restart_view (hsave : P.Savable crypto) (h : s.Linked) (hord : s.Ordered P)
    (hback : ReadsBack crypto s) :
    ∃ file x, configSave crypto s = some file ∧ configLoad crypto file Store.init = some x ∧
      x.Linked ∧ x.Ordered P ∧ x.view = s.view := by
  obtain ⟨x, hx, hlinked, hordered, hfacts, hanon⟩ :=
    configLoadTree_saved h hord hsave.close hsave.faithful hsave.whole
  obtain ⟨hfile, hparse⟩ := hback _ (configSaveTree_eq h)
  refine ⟨_, x, configSave_eq h, ?_, hlinked, hordered,
    view_eq hsave.close h hord hlinked hordered hfacts hanon⟩
  unfold configLoad
  simp only [if_neg hfile, hparse, hx]

/-- Every store that is reached is linked and in order. -/
theorem Reached.good (hsave : P.Savable crypto) (h : Reached crypto P s) :
    s.Linked ∧ s.Ordered P := by
  induction h with
  | init => exact ⟨linked_init, ordered_init⟩
  | @turn s rand json correlationData turn _ hgood hturn ih =>
    obtain ⟨turn', hturn', hedits⟩ := handleCommand_edits ih.1 hgood correlationData
    cases hturn.symm.trans hturn'
    exact ⟨linked_edits ih.1 hedits, ordered_edits ih.2 hedits⟩
  | restart _ hback hfile hx ih =>
    obtain ⟨file', x', hfile', hx', hlinked, hordered, -⟩ := restart_view hsave ih.1 ih.2 hback
    cases hfile.symm.trans hfile'
    cases hx.symm.trans hx'
    exact ⟨hlinked, hordered⟩

/-- A message whose elements are good is gone through to its end. -/
theorem handleControl_reached (hsave : P.Savable crypto) (items : List (Bytes × Json)) :
    ∀ {s rc correlationData effects}, Reached crypto P s →
    GoodAll P crypto items correlationData s → ∃ rc' effects' s',
      handleControl crypto items rc correlationData effects s = some (rc', effects', s') ∧
        Reached crypto P s' := by
  induction items with
  | nil => exact fun h _ => ⟨_, _, _, rfl, h⟩
  | cons item items ih =>
    intro s rc correlationData effects h hgood
    obtain ⟨rand, json⟩ := item
    obtain ⟨hgood, hrest⟩ := hgood
    obtain ⟨turn, hturn, -⟩ := handleCommand_edits (h.good hsave).1 hgood correlationData
    have hnext : Reached crypto P turn.store := .turn h hgood hturn
    unfold handleControl
    rw [hturn]
    simp only
    cases hgoes : turn.goesOn with
    | true => exact ih hnext (hrest turn hturn hgoes)
    | false => exact ⟨_, _, _, rfl, hnext⟩

end Runs

/-! ## A run -/

/-- Priorities whose differences are `int`s, passwords that can be saved, and no topic twice. -/
def Kind.narrow : Kind :=
  ⟨fun prio => -2 ^ 30 ≤ prio.toInt ∧ prio.toInt < 2 ^ 30, Pw.Whole, True⟩

instance : DecidablePred Kind.narrow.prio := fun prio =>
  inferInstanceAs (Decidable (-2 ^ 30 ≤ prio.toInt ∧ prio.toInt < 2 ^ 30))

/-- A stand-in for OpenSSL while no password is set. -/
def plainCrypto : Crypto := ⟨fun _ _ _ => List.replicate 64 0, id, some⟩

theorem narrow_savable : Kind.narrow.Savable plainCrypto := by
  refine ⟨fun a b ha hb => ?_, fun pw hpw => hpw, fun text _ => rfl⟩
  obtain ⟨ha₁, ha₂⟩ := ha
  obtain ⟨hb₁, hb₂⟩ := hb
  unfold CInt.Fits
  omega

/-- A text in quotes, without anything to escape. -/
def quoted (text : Bytes) : Bytes := [34] ++ text ++ [34]

/-- The indentation of a line. -/
def tabs (depth : Nat) : Bytes := List.replicate depth 9

mutual

def printValue (depth : Nat) : Json → Bytes
  | .null => ascii "null"
  | .bool value => ascii (if value then "true" else "false")
  | .number valueint => ascii (toString valueint.toInt)
  | .string valuestring => quoted valuestring
  | .array items => [91] ++ printItems (depth + 1) items ++ [93]
  | .object fields => [123, 10] ++ printFields (depth + 1) fields ++ tabs depth ++ [125]

def printItems (depth : Nat) : List Json → Bytes
  | [] => []
  | [item] => printValue depth item
  | item :: next :: items =>
    printValue depth item ++ ascii ", " ++ printItems depth (next :: items)

def printFields (depth : Nat) : List (Bytes × Json) → Bytes
  | [] => []
  | [field] => printField depth field ++ [10]
  | field :: next :: fields =>
    printField depth field ++ [44, 10] ++ printFields depth (next :: fields)

def printField (depth : Nat) : Bytes × Json → Bytes
  | (name, value) => tabs depth ++ quoted name ++ [58, 9] ++ printValue depth value

end

def jText (name text : String) : Bytes × Json := (ascii name, .string (ascii text))

def jAcl (acltype topic : String) (prio : Int32) (allow : Bool) : Json :=
  .object [jText "acltype" acltype, jText "topic" topic, (ascii "priority", .number prio),
    (ascii "allow", .bool allow)]

/-- `createRole`, with two entries that match one topic. -/
def createRoleR : Json := .object [jText "command" "createRole", jText "rolename" "r",
  (ascii "acls", .array [jAcl "publishClientSend" "a/#" 3 false,
    jAcl "publishClientSend" "a/b" 5 true])]

def createClientC : Json := .object [jText "command" "createClient", jText "username" "c"]

/-- `addClientRole`. -/
def addClientRoleCR : Json := .object [jText "command" "addClientRole", jText "username" "c",
  jText "rolename" "r", (ascii "priority", .number 2)]

def savedCR : Json := .object [
  (ascii "defaultACLAccess", .object [(ascii "publishClientSend", .bool false),
    (ascii "publishClientReceive", .bool false), (ascii "subscribe", .bool false),
    (ascii "unsubscribe", .bool false)]),
  (ascii "clients", .array [.object [jText "username" "c",
    (ascii "roles", .array [.object [jText "rolename" "r", (ascii "priority", .number 2)]])]]),
  (ascii "groups", .array []),
  (ascii "roles", .array [.object [jText "rolename" "r", (ascii "acls", .array
    [jAcl "publishClientSend" "a/b" 5 true, jAcl "publishClientSend" "a/#" 3 false])]])]

/-- A stand-in for `cJSON` that parses one file. -/
instance : JsonLibrary where
  getObjectItem json name :=
    match json with
    | .object fields => (fields.find? fun f => sameIgnoringCase f.1 (ascii name)).map Prod.snd
    | _ => none
  print := printValue 0
  parse file := if file = printValue 0 savedCR then some savedCR else none

instance : LawfulJsonLibrary := ⟨fun _ _ => rfl⟩

/-- Of two entries for one filter the later one is found, whatever their priorities. -/
example : (((aclsLoad [jAcl "subscribeLiteral" "a" 5 true, jAcl "subscribeLiteral" "a" 3 false]
    .subscribeLiteral).find (ascii "a")).map fun e => e.2.allow) = some false := by decide

def salt : Bytes := List.replicate 12 7

theorem narrow_sets : Kind.narrow.Sets plainCrypto salt :=
  ⟨.inl rfl, fun _ => .inr ⟨rfl, rfl, rfl, (by decide : (1 : Int32) ≤ 101)⟩⟩

theorem good_createRoleR (s : Store) : Good Kind.narrow plainCrypto s salt createRoleR := by
  refine ⟨fun command hcommand => ?_, ⟨by decide, by decide, by decide, by decide, by decide,
    ?_, fun _ type => by cases type <;> decide⟩, narrow_sets⟩
  · cases (rfl : createRoleR.commandOf = some .createRole).symm.trans hcommand
    trivial
  · intro j hj
    rcases List.mem_cons.mp hj with rfl | hj
    · decide
    · obtain rfl := List.mem_singleton.mp hj
      decide

theorem good_createClientC (s : Store) : Good Kind.narrow plainCrypto s salt createClientC := by
  refine ⟨fun command hcommand => ?_, ⟨by decide, by decide, by decide, by decide, by decide,
    List.forall_mem_nil _, fun _ type => by cases type <;> decide⟩, narrow_sets⟩
  cases (rfl : createClientC.commandOf = some .createClient).symm.trans hcommand
  exact ⟨rfl, List.forall_mem_nil _, List.nodup_nil⟩

theorem good_addClientRoleCR (s : Store) :
    Good Kind.narrow plainCrypto s salt addClientRoleCR := by
  refine ⟨fun command hcommand => ?_, ⟨by decide, by decide, by decide, by decide, by decide,
    List.forall_mem_nil _, fun _ type => by cases type <;> decide⟩, narrow_sets⟩
  cases (rfl : addClientRoleCR.commandOf = some .addClientRole).symm.trans hcommand
  trivial

/-- The store after an element. -/
def after (s : Store) (json : Json) : Store :=
  ((handleCommand plainCrypto salt json none s).map Turn.store).getD s

theorem reached_after {s : Store} {json : Json} (h : Reached plainCrypto Kind.narrow s)
    (hgood : Good Kind.narrow plainCrypto s salt json) :
    Reached plainCrypto Kind.narrow (after s json) := by
  obtain ⟨turn, hturn, -⟩ := handleCommand_edits (h.good narrow_savable).1 hgood none
  unfold after
  rw [hturn]
  exact .turn h hgood hturn

def beforeRole : Store := after (after Store.init createRoleR) createClientC

theorem reached_beforeRole : Reached plainCrypto Kind.narrow beforeRole :=
  reached_after (reached_after .init (good_createRoleR _)) (good_createClientC _)

def withRole : Store := after beforeRole addClientRoleCR

theorem reached_withRole : Reached plainCrypto Kind.narrow withRole :=
  reached_after reached_beforeRole (good_addClientRoleCR _)

/-! ## Every run -/

variable {s : Store} {P : Kind} {crypto : Crypto} {rand : Bytes} {json : Json}
  {correlationData : Option Bytes}

/-- **No run reads freed memory**: from a store that is reached, a good message is gone through,
the store can be saved, and the check of a topic has an answer. -/
theorem control_runs [JsonLibrary] [LawfulJsonLibrary] (hsave : P.Savable crypto)
    (h : Reached crypto P s) :
    (∀ items rc correlationData effects, GoodAll P crypto items correlationData s →
      ∃ rc' effects' s', handleControl crypto items rc correlationData effects s =
        some (rc', effects', s') ∧ Reached crypto P s') ∧
    (∃ file, configSave crypto s = some file) ∧
    ∀ access username topic, ∃ rc, aclCheckCallback s access username topic = some rc := by
  obtain ⟨hlinked, -⟩ := h.good hsave
  exact ⟨fun items rc correlationData effects hgood => handleControl_reached hsave items h hgood,
    ⟨_, configSave_eq hlinked⟩,
    fun access username topic => ⟨_, aclCheckCallback_eq hlinked access username topic⟩⟩

theorem control_runs_three : ∃ rc effects s', handleControl plainCrypto
      [(salt, createRoleR), (salt, createClientC), (salt, addClientRoleCR)] Rc.success none []
      Store.init = some (rc, effects, s') ∧ Reached plainCrypto Kind.narrow s' :=
  (control_runs narrow_savable .init).1 _ _ _ _ ⟨good_createRoleR _, fun _ _ _ =>
    ⟨good_createClientC _, fun _ _ _ => ⟨good_addClientRoleCR _, fun _ _ _ => trivial⟩⟩⟩

/-- **The check of a topic goes by priority**, in every store that is reached. -/
theorem control_decides [JsonLibrary] [LawfulJsonLibrary] (hsave : P.Savable crypto)
    (h : Reached crypto P s) (access : Access) (username : Option Bytes) (topic : Bytes) :
    ∃ rc, aclCheckCallback s access username topic = some rc ∧
      ((∃ st, s.Grants access username st ∧ st.hits access topic = true ∧ rc = st.acl.decision ∧
        ∀ st', s.Grants access username st' → st'.hits access topic = true →
          st.place ≤ st'.place) ∨
      (∀ st, s.Grants access username st → ¬ st.hits access topic = true) ∧
        rc = s.otherwise access username topic) := by
  obtain ⟨hlinked, hordered⟩ := h.good hsave
  exact aclCheck_best hlinked hordered hsave.close access username topic

/-- The entry of priority 5 allows what the one of priority 3 denies. -/
theorem control_decides_send : aclCheckCallback withRole .write (some (ascii "c")) (ascii "a/b") =
      some Rc.success ∧
    ∃ st, withRole.Grants .write (some (ascii "c")) st ∧ st.hits .write (ascii "a/b") = true ∧
      st.acl.decision = Rc.success ∧
      ∀ st', withRole.Grants .write (some (ascii "c")) st' → st'.hits .write (ascii "a/b") = true →
        st.place ≤ st'.place := by
  have hrun : aclCheckCallback withRole .write (some (ascii "c")) (ascii "a/b") =
      some Rc.success := by decide
  obtain ⟨rc, hrc, ⟨st, hst, hhits, hdec, hleast⟩ | ⟨-, hdefault⟩⟩ :=
    control_decides narrow_savable reached_withRole .write (some (ascii "c")) (ascii "a/b")
  · cases hrun.symm.trans hrc
    exact ⟨hrun, st, hst, hhits, hdec.symm, hleast⟩
  · cases hrun.symm.trans hrc
    exact absurd hdefault (by decide)

/-- **A restart changes nothing**: what was saved is loaded, shows the same, and gives everyone the
same answers. -/
theorem control_restarts [JsonLibrary] [LawfulJsonLibrary] (hsave : P.Savable crypto)
    (hsingle : P.single) (h : Reached crypto P s) (hback : ReadsBack crypto s) :
    ∃ file x, configSave crypto s = some file ∧ configLoad crypto file Store.init = some x ∧
      x.view = s.view ∧
      (∀ access u topic, aclCheckCallback x access u topic = aclCheckCallback s access u topic) ∧
      ∀ u password clientid, basicAuthCallback crypto x u password clientid =
        basicAuthCallback crypto s u password clientid := by
  obtain ⟨hlinked, hordered⟩ := h.good hsave
  obtain ⟨file, x, hfile, hx, hxlinked, -, hview⟩ := restart_view hsave hlinked hordered hback
  exact ⟨file, x, hfile, hx, hview,
    aclCheck_view hlinked hxlinked hordered hsingle hview, basicAuth_view hview⟩

theorem readsBack_withRole : ReadsBack plainCrypto withRole := by
  intro tree htree
  obtain rfl : savedCR = tree :=
    Option.some.inj ((rfl : some savedCR = configSaveTree plainCrypto withRole).trans htree)
  exact ⟨List.cons_ne_nil _ _, if_pos rfl⟩

theorem control_restarts_role : ∃ file x, configSave plainCrypto withRole = some file ∧
      configLoad plainCrypto file Store.init = some x ∧ x.view = withRole.view ∧
      (∀ access u topic, aclCheckCallback x access u topic =
        aclCheckCallback withRole access u topic) ∧
      ∀ u password clientid, basicAuthCallback plainCrypto x u password clientid =
        basicAuthCallback plainCrypto withRole u password clientid :=
  control_restarts narrow_savable trivial reached_withRole readsBack_withRole

end AdaptiveMqtt.Dynsec
