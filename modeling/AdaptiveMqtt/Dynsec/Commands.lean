import AdaptiveMqtt.Dynsec.Steps

/-!
# The commands on a linked store

Every command that changes something makes edits of a linked store, if it does not go one of the
ways the lists of both ends are not kept together: `createClient` and `createGroup` that bring
roles, `modifyGroup` that replaces roles, `createClient` with a group that fails, and `deleteGroup`
of the anonymous group. Who is concerned by the edits is kicked, but for a few commands.
-/

namespace AdaptiveMqtt.Dynsec

open Lib Security Links Store

variable {s s' : Store} {c g r : Addr} {client : Client} {group : Group} {role : Role}
  {prio : Int32} {K : Option Bytes → Prop} {P : Kind} {crypto : Crypto} {rand : Bytes}
  {json : Json} {username groupname rolename : Bytes}

/-! ## Conditions -/

variable [JsonLibrary]

/-- The command does not go a way that leaves one end of a reference behind. -/
def Mild (s : Store) (json : Json) : Command → Prop
  | .createClient => json.getObjectItem "roles" = none ∧
      (∀ m ∈ Json.members (json.arrayField "groups") "groupname",
        (s.groupsFind m.1).isSome = true) ∧
      ((Json.members (json.arrayField "groups") "groupname").map Prod.fst).Nodup
  | .createGroup => json.getObjectItem "roles" = none
  | .modifyGroup => json.getObjectItem "roles" = none
  | .deleteGroup => ∀ groupname g group, json.getString "groupname" false = (0, some groupname) →
      s.groupsFind groupname = some (g, group) → s.dynsecAnonymousGroup ≠ some g
  | _ => True

/-- Those whose rights or credentials a command may change without a kick. -/
def Unkicked (s : Store) (json : Json) (u : Option Bytes) : Command → Prop
  | .createClient => json.getString "username" false = (0, u)
  | .enableClient => json.getString "username" false = (0, u)
  | .modifyGroup => ∃ groupname g group, json.getString "groupname" false = (0, some groupname) ∧
      s.groupsFind groupname = some (g, group) ∧ s.InGroup u g
  | .modifyRole => ∃ rolename r role, json.getString "rolename" false = (0, some rolename) ∧
      s.rolesFind rolename = some (r, role) ∧ s.Holds u r
  | .setDefaultACLAccess => True
  | _ => False

/-- The priorities a command has are of the kind, and the topics of its entries are. -/
structure Kind.Reads (P : Kind) (json : Json) : Prop where
  prio : P.prio (json.getInt "priority" (-1))
  roles : ∀ j ∈ json.arrayField "roles", P.prio (j.getInt "priority" (-1))
  groups : ∀ j ∈ json.arrayField "groups", P.prio (j.getInt "priority" (-1))
  clients : ∀ j ∈ json.arrayField "clients", P.prio (j.getInt "priority" (-1))
  acl : P.prio (json.getInt "priority" 0)
  acls : ∀ j ∈ json.arrayField "acls", P.prio (j.getInt "priority" 0)
  topics : P.single →
    ∀ type, ((aclsLoad (json.arrayField "acls") type).entries.map (·.topic)).Nodup

structure Kind.Sets (P : Kind) (crypto : Crypto) (rand : Bytes) : Prop where
  zero : P.pw Pw.zero
  set : ∀ password, P.pw (setPassword crypto rand password)

def Edited (P : Kind) (U : Option Bytes → Prop) (s : Store) (x : Option Result) : Prop :=
  ∃ result, x = some result ∧ Edits (fun u => u ∈ result.kicks ∨ U u) P s result.store

variable {U : Option Bytes → Prop}

/-! ## Ways through a command -/

omit [JsonLibrary] in
theorem edited_refuse (e : Rc × String) : Edited P U s (refuse s e) := ⟨_, rfl, .refl⟩

omit [JsonLibrary] in
theorem edited_done {kicks : List (Option Bytes)} (h : Edits K P s s')
    (hK : ∀ u, K u → u ∈ kicks ∨ U u) : Edited P U s (done s' kicks) := ⟨_, rfl, h.mono hK⟩

omit [JsonLibrary] in
theorem edited_checked {α : Type} {x : Except (Rc × String) α} {k : α → Option Result}
    (h : ∀ a, x = .ok a → Edited P U s (k a)) : Edited P U s (checked s x k) := by
  cases hx : x with
  | error e => exact edited_refuse e
  | ok a => exact h a hx

omit [JsonLibrary] in
/-- A computation that ends well began well. -/
theorem ok_of_bind {ε α β : Type} {x : Except ε α} {f : α → Except ε β} {b : β}
    (h : x >>= f = .ok b) : ∃ a, x = .ok a ∧ f a = .ok b := by
  cases x with
  | error e => cases h
  | ok a => exact ⟨a, rfl, h⟩

theorem required_ok {name missing : String} {value : Bytes}
    (h : required json name missing = .ok value) : json.getString name false = (0, some value) := by
  unfold required at h
  split at h
  · rename_i heq
    cases h
    exact heq
  · cases h

theorem requiredName_ok {name missing invalid : String} {value : Bytes}
    (h : requiredName json name missing invalid = .ok value) :
    json.getString name false = (0, some value) := by
  obtain ⟨v, hrequired, hutf8⟩ := ok_of_bind h
  unfold utf8 at hutf8
  split at hutf8
  · cases hutf8
    exact required_ok hrequired
  · cases hutf8

theorem edited_onClient {k : Bytes → Addr → Client → Option Result}
    (h : ∀ username c client, json.getString "username" false = (0, some username) →
      s.localClients.get c = some client → client.username = username →
      Edited P U s (k username c client)) : Edited P U s (onClient json s k) := by
  refine edited_checked fun username hread => ?_
  cases hf : s.clientsFind username with
  | none => exact edited_refuse _
  | some found =>
    obtain ⟨hc, hname⟩ := clientsFind_some hf
    exact h username found.1 found.2 (requiredName_ok hread) hc hname

theorem edited_onGroup {missing : Rc} {k : Addr → Group → Option Result}
    (h : ∀ groupname g group, json.getString "groupname" false = (0, some groupname) →
      s.groupsFind groupname = some (g, group) → Edited P U s (k g group)) :
    Edited P U s (onGroup json s missing k) := by
  refine edited_checked fun groupname hread => ?_
  cases hf : s.groupsFind groupname with
  | none => exact edited_refuse _
  | some found => exact h groupname found.1 found.2 (requiredName_ok hread) hf

theorem edited_onRole {missing : Rc × String} {k : Addr → Role → Option Result}
    (h : ∀ rolename r role, json.getString "rolename" false = (0, some rolename) →
      s.rolesFind rolename = some (r, role) → Edited P U s (k r role)) :
    Edited P U s (onRole json s missing k) := by
  refine edited_checked fun rolename hread => ?_
  cases hf : s.rolesFind rolename with
  | none => exact edited_refuse _
  | some found => exact h rolename found.1 found.2 (requiredName_ok hread) hf

theorem edited_onClientRole {k : Bytes → Addr → Client → Addr → Role → Option Result}
    (h : ∀ username c client r role, s.localClients.get c = some client →
      client.username = username → s.localRoles.get r = some role →
      Edited P U s (k username c client r role)) : Edited P U s (onClientRole json s k) := by
  refine edited_checked fun names _ => ?_
  obtain ⟨username, rolename⟩ := names
  simp only
  cases hfc : s.clientsFind username with
  | none => exact edited_refuse _
  | some found =>
    obtain ⟨hc, hname⟩ := clientsFind_some hfc
    cases hfr : s.rolesFind rolename with
    | none => exact edited_refuse _
    | some found' => exact h username found.1 found.2 found'.1 found'.2 hc hname (rolesFind_some hfr).1

theorem edited_onGroupRole {k : Addr → Group → Addr → Role → Option Result}
    (h : ∀ g group r role, s.localGroups.get g = some group → s.localRoles.get r = some role →
      Edited P U s (k g group r role)) : Edited P U s (onGroupRole json s k) := by
  refine edited_checked fun names _ => ?_
  obtain ⟨groupname, rolename⟩ := names
  simp only
  cases hfg : s.groupsFind groupname with
  | none => exact edited_refuse _
  | some found =>
    cases hfr : s.rolesFind rolename with
    | none => exact edited_refuse _
    | some found' =>
      exact h found.1 found.2 found'.1 found'.2 (groupsFind_some hfg).1 (rolesFind_some hfr).1

/-! ## Entries -/

omit [JsonLibrary] in
theorem ofAcls_nil : P.OfAcls [] :=
  ⟨List.forall_mem_nil _, fun _ => .nil, fun _ => List.nodup_nil⟩

omit [JsonLibrary] in
theorem sorted_add {acl : DynsecAcl} {acls : List DynsecAcl} (hacl : P.prio acl.priority)
    (hprio : ∀ acl ∈ acls, P.prio acl.priority) (hclose : P.Close)
    (h : acls.Pairwise fun a b => b.priority ≤ a.priority) :
    (hashAddInorder insertAclCmp acl acls).Pairwise fun a b => b.priority ≤ a.priority := by
  have hpos : ∀ e ∈ acls, 0 < insertAclCmp e acl ↔ e.priority < acl.priority := fun e he =>
    pos_sub_of_fits (hclose hacl (hprio e he))
  refine sorted_hashAdd h (fun e he hcmp => ?_) fun e he hcmp => ?_
  · exact Int32.le_of_lt ((hpos e he).mp hcmp)
  · exact Int32.not_lt.mp (mt (hpos e he).mpr hcmp)

omit [JsonLibrary] in
theorem ofAcls_add {acl : DynsecAcl} {acls : List DynsecAcl} (hacl : P.prio acl.priority)
    (hnew : P.single → acl.topic ∉ acls.map (·.topic)) (h : P.OfAcls acls) :
    P.OfAcls (hashAddInorder insertAclCmp acl acls) := by
  refine ⟨fun e he => ?_, fun hclose => sorted_add hacl h.prio hclose (h.sorted hclose), ?_⟩
  · rcases mem_hashAdd.mp he with rfl | he
    · exact hacl
    · exact h.prio e he
  · intro hsingle
    have hperm : (hashAddInorder insertAclCmp acl acls).Perm (acl :: acls) :=
      Agenda.perm_insertBefore _ _ _
    rw [(hperm.map _).nodup_iff]
    exact List.nodup_cons.mpr ⟨hnew hsingle, h.nodup hsingle⟩

omit [JsonLibrary] in
theorem ofAcls_sublist {acls acls' : List DynsecAcl} (hsub : List.Sublist acls' acls)
    (h : P.OfAcls acls) : P.OfAcls acls' :=
  ⟨fun e he => h.prio e (hsub.subset he), fun hclose => (h.sorted hclose).sublist hsub,
    fun hsingle => (h.nodup hsingle).sublist (hsub.map _)⟩

theorem aclOf_priority {key : Bytes} {j : Json} {acl : DynsecAcl} (h : aclOf key j.acl = some acl) :
    acl.priority = j.getInt "priority" 0 := by
  have hint : (jsonGetInt ((j.getObjectItem "priority").map Json.field) 0 true 0).2 =
      j.getInt "priority" 0 := by
    unfold Json.getInt
    cases j.getObjectItem "priority" with
    | none => rfl
    | some item => cases item <;> rfl
  unfold aclOf at h
  cases htype : j.acl.acltype with
  | none =>
    rw [htype] at h
    cases h
  | some type =>
    rw [htype] at h
    cases type with
    | string valuestring =>
      simp only at h
      split at h
      · cases h
      · cases htopic : j.acl.topic with
        | none =>
          rw [htopic] at h
          cases h
        | some topic =>
          rw [htopic] at h
          cases topic with
          | string topic =>
            cases h
            exact hint
          | _ => cases h
    | _ => cases h

theorem ofAcls_load (jAcls : List Json) (h : ∀ j ∈ jAcls, P.prio (j.getInt "priority" 0))
    (type : AclType)
    (hnodup : P.single → ((aclsLoad jAcls type).entries.map (·.topic)).Nodup) :
    P.OfAcls (aclsLoad jAcls type).entries := by
  have hfold : ∀ (l acls : List DynsecAcl), (∀ acl ∈ l, P.prio acl.priority) →
      (∀ acl ∈ acls, P.prio acl.priority) ∧
        (P.Close → acls.Pairwise fun a b => b.priority ≤ a.priority) →
      (∀ acl ∈ l.foldl (fun acls acl => hashAddInorder insertAclCmp acl acls) acls,
        P.prio acl.priority) ∧ (P.Close →
        (l.foldl (fun acls acl => hashAddInorder insertAclCmp acl acls) acls).Pairwise
          fun a b => b.priority ≤ a.priority) := by
    intro l
    induction l with
    | nil => exact fun acls _ hacls => hacls
    | cons acl l ih =>
      intro acls hl ⟨hprio, hsorted⟩
      obtain ⟨hacl, hl⟩ := List.forall_mem_cons.mp hl
      refine ih _ hl ⟨fun e he => ?_, fun hclose => sorted_add hacl hprio hclose (hsorted hclose)⟩
      rcases mem_hashAdd.mp he with rfl | he
      · exact hacl
      · exact hprio e he
  have hread : ∀ acl ∈ (jAcls.map Json.acl).filterMap (aclOf (ascii type.text)),
      P.prio acl.priority := by
    intro acl hacl
    obtain ⟨jAcl, hj, heq⟩ := List.mem_filterMap.mp hacl
    obtain ⟨j, hmem, rfl⟩ := List.mem_map.mp hj
    rw [aclOf_priority heq]
    exact h j hmem
  rw [entries_aclsLoad, aclLoad_eq] at hnodup ⊢
  obtain ⟨hprio, hsorted⟩ := hfold _ [] hread ⟨List.forall_mem_nil _, fun _ => .nil⟩
  exact ⟨hprio, hsorted, hnodup⟩

theorem readAcls_ofRole (hreads : P.Reads json) {acls : AclType → AclList}
    (h : readAcls json = some acls) (type : AclType) : P.OfAcls (acls type).entries := by
  have hacls := hreads.acls
  have htopics := fun hsingle => hreads.topics hsingle type
  unfold readAcls at h
  unfold Json.arrayField at hacls htopics
  revert h hacls htopics
  cases json.getObjectItem "acls" with
  | none => exact fun h => by cases h
  | some item =>
    cases item with
    | array jAcls =>
      intro h hacls htopics
      cases h
      exact ofAcls_load jAcls hacls type htopics
    | _ => exact fun h => by cases h

/-! ## Clients -/

theorem members_prio {items : List Json}
    (h : ∀ j ∈ items, P.prio (j.getInt "priority" (-1))) (name : String) :
    ∀ m ∈ Json.members items name, P.prio m.2 := by
  intro m hm
  obtain ⟨j, hj, heq⟩ := List.mem_filterMap.mp hm
  split at heq
  · cases heq
    exact h j hj
  · cases heq

/-- No `"roles"`: nothing is loaded. -/
theorem rolelistLoadFromJson_none (h : json.getObjectItem "roles" = none) :
    rolelistLoadFromJson s json = some (errListNotFound, []) := by
  unfold rolelistLoadFromJson
  rw [h]

omit [JsonLibrary] in
theorem nonempty_ne (clientid : Option Bytes) : nonempty clientid ≠ some [] := by
  intro h
  obtain ⟨-, hne⟩ := Option.filter_eq_some_iff.mp h
  exact of_decide_eq_true hne rfl

theorem createClient_edited (h : s.Linked) (hmild : Mild s json .createClient)
    (hreads : P.Reads json) (hsets : P.Sets crypto rand) :
    Edited P (fun u => Unkicked s json u .createClient) s
      (processCreateClient crypto rand json s) := by
  obtain ⟨hroles, hgroups, hnodup⟩ := hmild
  refine edited_checked fun fields hread => ?_
  obtain ⟨username, password, clientid, textName, textDescription⟩ := fields
  have hname : json.getString "username" false = (0, some username) := by
    obtain ⟨v, hv, hrest⟩ := ok_of_bind hread
    obtain ⟨_, -, hrest⟩ := ok_of_bind hrest
    obtain ⟨clientid', -, hrest⟩ := ok_of_bind hrest
    cases clientid' with
    | none =>
      obtain ⟨_, -, hrest⟩ := ok_of_bind hrest
      obtain ⟨_, -, hrest⟩ := ok_of_bind hrest
      cases hrest
      exact requiredName_ok hv
    | some clientid' =>
      obtain ⟨_, -, hrest⟩ := ok_of_bind hrest
      obtain ⟨_, -, hrest⟩ := ok_of_bind hrest
      cases hrest
      exact requiredName_ok hv
  simp only
  cases hf : s.clientsFind username with
  | some found => exact edited_refuse _
  | none =>
    rw [rolelistLoadFromJson_none hroles]
    simp only [Option.isSome_none, Bool.false_eq_true, if_false, Option.bind_eq_bind,
      Option.bind_some]
    rw [if_neg (by decide), if_neg (by decide)]
    let client : Client := ⟨username, nonempty clientid, textName, textDescription,
      password.elim Pw.zero (setPassword crypto rand), false, [], []⟩
    let U : Option Bytes → Prop := fun u => Unkicked s json u .createClient
    have hkind : P.OfClient client := by
      refine ⟨nonempty_ne clientid, ?_⟩
      cases password with
      | none => exact hsets.zero
      | some password => exact hsets.set password
    have hedit : Edit U P s (s.addClient client) := .addClient hkind rfl rfl hf hname
    have hget : (s.addClient client).localClients.get s.next = some client := by
      unfold Store.addClient
      rw [Table.get_insert, if_pos rfl]
    have hthere : ∀ m ∈ Json.members (json.arrayField "groups") "groupname",
        ∃ g l, (s.addClient client).groupClients g = some (m.1, l) := by
      intro m hm
      obtain ⟨⟨g, group⟩, hg⟩ := Option.isSome_iff_exists.mp (hgroups m hm)
      obtain ⟨hg, hgname⟩ := groupsFind_some hg
      exact ⟨g, group.clientlist, hgname ▸ groupClients_get hg⟩
    obtain ⟨s', hs', hedits⟩ := createClientGroups_edits (K := U) (P := P) _ (linked_edit h hedit)
      hget hname hthere (fun _ _ => List.not_mem_nil) hnodup (members_prio hreads.groups _)
    rw [hs', Option.bind_some]
    exact edited_done (.head hedit hedits) fun u hu => .inr hu

theorem deleteClient_edited (h : s.Linked) : Edited P U s (processDeleteClient json s) := by
  refine edited_checked fun username _ => ?_
  cases hf : s.clientsFind username with
  | none => exact edited_refuse _
  | some found =>
    obtain ⟨c, client⟩ := found
    obtain ⟨hc, rfl⟩ := clientsFind_some hf
    let K : Option Bytes → Prop := fun u => u = some client.username
    obtain ⟨s₁, hs₁, hedits₁, hc₁, -⟩ :=
      removeClientFromAllGroups_edits (K := K) (P := P) h hc rfl
    obtain ⟨s₂, hs₂, hedits₂, hc₂, -⟩ :=
      clientRemoveAllRoles_edits (K := K) (P := P) (linked_edits h hedits₁) hc₁ rfl
    simp only [Option.bind_eq_bind, hs₁, hs₂, Option.bind_some]
    refine edited_done ((hedits₁.trans hedits₂).tail (.freeClient hc₂ rfl rfl rfl)) fun u hu => ?_
    exact .inl (List.mem_singleton.mpr hu)

omit [JsonLibrary] in
/-- A client's own fields change. -/
theorem edit_setClient (hc : s.localClients.get c = some client) {f : Client → Client}
    (hname : (f client).username = client.username) (hroles : (f client).rolelist = client.rolelist)
    (hgroups : (f client).grouplist = client.grouplist)
    (hkind : P.OfClient client → P.OfClient (f client)) :
    Edit (fun u => u = some client.username) P s (s.setClient c f) :=
  .client hc hname hroles hgroups hkind fun _ => rfl

theorem disableClient_edited : Edited P U s (processDisableClient json s) := by
  refine edited_onClient fun username c client _ hc hname => ?_
  refine edited_done (.single (edit_setClient hc rfl rfl rfl id)) fun u hu => ?_
  exact .inl (List.mem_singleton.mpr (hname ▸ hu))

theorem enableClient_edited :
    Edited P (fun u => Unkicked s json u .enableClient) s (processEnableClient json s) := by
  refine edited_onClient fun username c client hjson hc hname => ?_
  refine edited_done (.single (edit_setClient hc rfl rfl rfl id)) fun u hu => .inr ?_
  rw [hu, hname]
  exact hjson

theorem setClientId_edited : Edited P U s (processSetClientId json s) := by
  refine edited_checked fun fields _ => ?_
  obtain ⟨username, clientid⟩ := fields
  simp only
  cases hf : s.clientsFind username with
  | none => exact edited_refuse _
  | some found =>
    obtain ⟨hc, hname⟩ := clientsFind_some hf
    refine edited_done (.single (edit_setClient hc rfl rfl rfl fun hkind =>
      ⟨nonempty_ne clientid, hkind.2⟩)) fun u hu => ?_
    exact .inl (List.mem_singleton.mpr (hname ▸ hu))

theorem setClientPassword_edited (hsets : P.Sets crypto rand) :
    Edited P U s (processSetClientPassword crypto rand json s) := by
  refine edited_checked fun fields _ => ?_
  obtain ⟨username, password⟩ := fields
  simp only
  cases hf : s.clientsFind username with
  | none => exact edited_refuse _
  | some found =>
    obtain ⟨hc, hname⟩ := clientsFind_some hf
    refine edited_done (.single (edit_setClient hc rfl rfl rfl fun hkind =>
      ⟨hkind.1, hsets.set password⟩)) fun u hu => ?_
    exact .inl (List.mem_singleton.mpr (hname ▸ hu))

theorem modifiedClient_ofClient (hsets : P.Sets crypto rand) (json : Json)
    (hkind : P.OfClient client) : P.OfClient (modifiedClient crypto rand json client) := by
  obtain ⟨hid, hpw⟩ := hkind
  unfold modifiedClient
  refine ⟨?_, ?_⟩
  · simp only
    split
    · exact nonempty_ne _
    · exact hid
  · simp only
    split
    · split
      · exact hpw
      · exact hsets.set _
    · exact hpw

theorem replaceClientGroups_edits (h : s.Linked) (hc : s.localClients.get c = some client)
    (hK : K (some client.username)) (hreads : P.Reads json) :
    ∃ s', replaceClientGroups client.username json s = some s' ∧ Edits K P s s' := by
  have hgroups := hreads.groups
  unfold replaceClientGroups
  unfold Json.arrayField at hgroups
  revert hgroups
  cases json.getObjectItem "groups" with
  | none => exact fun _ => ⟨s, rfl, .refl⟩
  | some item =>
    cases item with
    | array jGroups =>
      intro hgroups
      obtain ⟨s₁, hs₁, hedits₁, -, -⟩ := removeClientFromAllGroups_edits (P := P) h hc hK
      obtain ⟨s₂, hs₂, hedits₂⟩ := clientAddGroups_edits (P := P) (linked_edits h hedits₁) hK
        (members_prio hgroups "groupname")
      refine ⟨s₂, ?_, hedits₁.trans hedits₂⟩
      simp only [hs₁, Option.bind_some, hs₂]
    | _ => exact fun _ => ⟨s, rfl, .refl⟩

omit [JsonLibrary] in
theorem replaceClientRoles_edits (h : s.Linked) (hc : s.localClients.get c = some client)
    (hK : K (some client.username)) (rc : Rc) {rolelist : List Ref}
    (hroles : ∀ e ∈ rolelist, s.localRoles.live e.addr = true ∧ P.prio (priority e)) :
    ∃ s', replaceClientRoles c rc rolelist s = some s' ∧ Edits K P s s' ∧
      ∃ client', s'.localClients.get c = some client' ∧ client'.username = client.username := by
  unfold replaceClientRoles
  split
  · obtain ⟨s₁, hs₁, hedits₁, hc₁, hlive⟩ := clientRemoveAllRoles_edits (P := P) h hc hK
    obtain ⟨s₂, hs₂, hedits₂, hc₂⟩ := clientAddNewRoles_edits (P := P) (linked_edits h hedits₁) hc₁ hK
      fun e he => ⟨(hlive e.addr).trans (hroles e he).1, (hroles e he).2⟩
    refine ⟨s₂, ?_, hedits₁.trans hedits₂, hc₂⟩
    rw [hs₁, Option.bind_some, hs₂]
  · exact ⟨s, rfl, .refl, client, hc, rfl⟩

theorem modifyClient_edited (h : s.Linked) (hreads : P.Reads json) (hsets : P.Sets crypto rand) :
    Edited P U s (processModifyClient crypto rand json s) := by
  refine edited_checked fun username _ => ?_
  cases hf : s.clientsFind username with
  | none => exact edited_refuse _
  | some found =>
    obtain ⟨c, client⟩ := found
    obtain ⟨hc, rfl⟩ := clientsFind_some hf
    let K : Option Bytes → Prop := fun u => u = some client.username
    have hedit : Edit K P s (s.setClient c (modifiedClient crypto rand json)) :=
      edit_setClient hc rfl rfl rfl (modifiedClient_ofClient hsets json)
    have h₁ := linked_edit h hedit
    have hc₁ : (s.setClient c (modifiedClient crypto rand json)).localClients.get c =
        some (modifiedClient crypto rand json client) := Table.get_modify_self hc
    have hkicked : ∀ u, K u → u ∈ [some client.username] ∨ U u := fun u hu =>
      .inl (List.mem_singleton.mpr hu)
    obtain ⟨rc, rolelist, hload, hroles⟩ :=
      rolelistLoadFromJson_live (s := s.setClient c (modifiedClient crypto rand json)) json
        hreads.roles
    simp only [Option.bind_eq_bind, hload, Option.bind_some]
    cases rolesError rc with
    | some error => exact ⟨_, rfl, Edits.mono hkicked (.single hedit)⟩
    | none =>
      obtain ⟨s₂, hs₂, hedits₂, client₂, hc₂, hname₂⟩ :=
        replaceClientRoles_edits (K := K) (P := P) h₁ hc₁ rfl rc hroles
      obtain ⟨s₃, hs₃, hedits₃⟩ := replaceClientGroups_edits (K := K) (P := P)
        (linked_edits h₁ hedits₂) hc₂ (congrArg some hname₂) hreads
      have hs₃' : replaceClientGroups client.username json s₂ = some s₃ := hname₂ ▸ hs₃
      simp only [hs₂, Option.bind_some, hs₃']
      exact edited_done (.head hedit (hedits₂.trans hedits₃)) hkicked

theorem addClientRole_edited (h : s.Linked) (hreads : P.Reads json) :
    Edited P U s (processAddClientRole json s) := by
  refine edited_onClientRole fun username c client r role hc hname hr => ?_
  simp only [Option.bind_eq_bind]
  by_cases hold : role.rolename ∈ client.rolelist.map (·.name)
  · rw [rolelistClientAdd_old h hc hold]
    exact edited_refuse _
  · rw [rolelistClientAdd_new h hc hr hold]
    refine edited_done (K := fun u => u = some client.username)
      (.single (.linkClientRole hc hr hold hreads.prio rfl)) fun u hu => ?_
    exact .inl (List.mem_singleton.mpr (hname ▸ hu))

theorem removeClientRole_edited (h : s.Linked) : Edited P U s (processRemoveClientRole json s) := by
  refine edited_onClientRole fun username c client r role hc hname hr => ?_
  simp only [Option.bind_eq_bind]
  rw [rolelistClientRemove_eq h hc hr]
  split
  · refine edited_done (K := fun u => u = some client.username)
      (.single (.unlinkClientRole hc hr rfl)) fun u hu => ?_
    exact .inl (List.mem_singleton.mpr (hname ▸ hu))
  · exact edited_done (K := fun u => u = some client.username) .refl fun u hu =>
      .inl (List.mem_singleton.mpr (hname ▸ hu))

/-! ## Groups -/

theorem createGroup_edited (hmild : Mild s json .createGroup) :
    Edited P U s (processCreateGroup json s) := by
  refine edited_checked fun fields _ => ?_
  obtain ⟨groupname, textName, textDescription⟩ := fields
  simp only
  cases hf : s.groupsFind groupname with
  | some found => exact edited_refuse _
  | none =>
    rw [rolelistLoadFromJson_none hmild]
    exact edited_done (K := fun _ => False) (.single (.addGroup rfl rfl hf)) fun u hu => hu.elim

theorem deleteGroup_edited (h : s.Linked) (hmild : Mild s json .deleteGroup) :
    Edited P U s (processDeleteGroup json s) := by
  refine edited_onGroup fun groupname g group hjson hf => ?_
  obtain ⟨hg, rfl⟩ := groupsFind_some hf
  obtain ⟨kicks, hkicks, hiff⟩ := groupKickAll_some h hg
  obtain ⟨s₁, hs₁, hedits₁, hg₁, hanon₁⟩ :=
    removeAllRolesFromGroup_edits (K := fun u => s.InGroup u g) (P := P) h hg fun _ hu => hu
  obtain ⟨s₂, hs₂, hedits₂, hg₂, hanon₂⟩ :=
    removeAllClientsFromGroup_edits (K := fun u => s.InGroup u g) (P := P)
      (linked_edits h hedits₁) hg₁ fun e he => .inl ⟨group, hg, e, he, rfl⟩
  have hanon : s₂.dynsecAnonymousGroup ≠ some g := by
    rw [hanon₂, hanon₁]
    exact hmild _ g group hjson hf
  simp only [Option.bind_eq_bind, hkicks, hs₁, hs₂, Option.bind_some]
  exact edited_done ((hedits₁.trans hedits₂).tail (.freeGroup hg₂ rfl rfl hanon)) fun u hu =>
    .inl ((hiff u).mpr hu)

theorem addGroupClient_edited (h : s.Linked) (hreads : P.Reads json) :
    Edited P U s (processAddGroupClient json s) := by
  refine edited_checked fun names _ => ?_
  obtain ⟨username, groupname⟩ := names
  simp only [Option.bind_eq_bind]
  rcases groupsAddClient_cases h username groupname (json.getInt "priority" (-1)) with
    ⟨c, client, g, group, hc, hg, hname, -, hnew, heq⟩ | ⟨rc, hne, heq⟩
  · rw [heq]
    refine edited_done (K := fun u => u = some client.username)
      (.single (.linkClientGroup hc hg hnew hreads.prio rfl)) fun u hu => ?_
    exact .inl (List.mem_singleton.mpr (hname ▸ hu))
  · rw [heq]
    simp only [Option.bind_some]
    rw [if_neg hne]
    exact ⟨_, rfl, .refl⟩

theorem removeGroupClient_edited (h : s.Linked) :
    Edited P U s (processRemoveGroupClient json s) := by
  refine edited_checked fun names _ => ?_
  obtain ⟨username, groupname⟩ := names
  simp only [Option.bind_eq_bind]
  cases hfc : s.clientsFind username with
  | none =>
    unfold groupsRemoveClient
    rw [hfc]
    exact ⟨_, rfl, .refl⟩
  | some found =>
    cases hfg : s.groupsFind groupname with
    | none =>
      unfold groupsRemoveClient
      rw [hfc, hfg]
      exact ⟨_, rfl, .refl⟩
    | some found' =>
      obtain ⟨hc, rfl⟩ := clientsFind_some hfc
      obtain ⟨hg, rfl⟩ := groupsFind_some hfg
      rw [groupsRemoveClient_eq h hc hg]
      refine edited_done (K := fun u => u = some found.2.username)
        (.single (.unlinkClientGroup hc hg rfl)) fun u hu => ?_
      exact .inl (List.mem_singleton.mpr hu)

theorem addGroupRole_edited (h : s.Linked) (hreads : P.Reads json) :
    Edited P U s (processAddGroupRole json s) := by
  refine edited_onGroupRole fun g group r role hg hr => ?_
  simp only [Option.bind_eq_bind]
  by_cases hold : role.rolename ∈ group.rolelist.map (·.name)
  · rw [rolelistGroupAdd_old h hg hold]
    exact edited_refuse _
  · rw [rolelistGroupAdd_new h hg hr hold]
    have hedit : Edit (fun u => s.InGroup u g) P s
        (linkGroupRole g r group role (json.getInt "priority" (-1)) s) :=
      .linkGroupRole hg hr hold hreads.prio fun _ hu => hu
    obtain ⟨kicks, hkicks, hiff⟩ := groupKickAll_some (linked_edit h hedit) (Table.get_modify_self hg)
    simp only [Option.bind_some, if_true, hkicks]
    refine edited_done (.single hedit) fun u hu => .inl ((hiff u).mpr ?_)
    refine Iff.mpr ?_ hu
    exact inGroup_congr (view_modify_keep hg rfl) rfl

theorem removeGroupRole_edited (h : s.Linked) : Edited P U s (processRemoveGroupRole json s) := by
  refine edited_onGroupRole fun g group r role hg hr => ?_
  have hedit : Edit (fun u => s.InGroup u g) P s (unlinkGroupRole g r group role s) :=
    .unlinkGroupRole hg hr fun _ hu => hu
  obtain ⟨kicks, hkicks, hiff⟩ := groupKickAll_some (linked_edit h hedit) (Table.get_modify_self hg)
  simp only [Option.bind_eq_bind, rolelistGroupRemove_eq h hg hr, Option.bind_some, hkicks]
  refine edited_done (.single hedit) fun u hu => .inl ((hiff u).mpr ?_)
  refine Iff.mpr ?_ hu
  exact inGroup_congr (view_modify_keep hg rfl) rfl

theorem modifyGroup_edited (h : s.Linked) (hmild : Mild s json .modifyGroup)
    (hreads : P.Reads json) :
    Edited P (fun u => Unkicked s json u .modifyGroup) s (processModifyGroup json s) := by
  refine edited_onGroup fun groupname g group hjson hf => ?_
  obtain ⟨hg, rfl⟩ := groupsFind_some hf
  have hclients := hreads.clients
  let f : Group → Group := fun group =>
    { group with textName := newText json "textname" group.textName
                 textDescription := newText json "textdescription" group.textDescription }
  let K : Option Bytes → Prop := fun u => s.InGroup u g
  have hedit : Edit K P s (s.setGroup g f) := .group hg rfl rfl rfl
  have h₁ := linked_edit h hedit
  have hg₁ : (s.setGroup g f).localGroups.get g = some (f group) := Table.get_modify_self hg
  have hunkicked : ∀ u, K u → Unkicked s json u .modifyGroup := fun u hu =>
    ⟨group.groupname, g, group, hjson, hf, hu⟩
  simp only [Option.bind_eq_bind]
  rw [rolelistLoadFromJson_none hmild]
  show Edited P _ s ((replaceGroupClients g group.groupname json (s.setGroup g f)).bind fun s =>
    (groupKickAll s g).bind fun kicks => done s kicks)
  unfold replaceGroupClients
  unfold Json.arrayField at hclients
  have hkeep : Edited P (fun u => Unkicked s json u .modifyGroup) s
      ((some (s.setGroup g f)).bind fun s => (groupKickAll s g).bind fun kicks => done s kicks) := by
    obtain ⟨kicks, hkicks, -⟩ := groupKickAll_some h₁ hg₁
    simp only [Option.bind_some, hkicks]
    exact edited_done (.single hedit) fun u hu => .inr (hunkicked u hu)
  revert hclients
  cases json.getObjectItem "clients" with
  | none => exact fun _ => hkeep
  | some item =>
    cases item with
    | array jClients =>
      intro hclients
      obtain ⟨s₂, hs₂, hedits₂, hg₂, -⟩ := removeAllClientsFromGroup_edits (K := K) (P := P) h₁ hg₁
        fun e he => .inl ⟨group, hg, e, he, rfl⟩
      obtain ⟨s₃, group₃, hs₃, h₃, hg₃, hedits₃⟩ := groupAddClients_edits (P := P)
        (linked_edits h₁ hedits₂) hg₂ (members_prio hclients "username")
      obtain ⟨kicks, hkicks, hiff⟩ := groupKickAll_some h₃ hg₃
      have hs₃' : groupAddClients group.groupname (Json.members jClients "username") s₂ = some s₃ :=
        hs₃
      simp only [hs₂, Option.bind_some, hs₃', hkicks]
      have hout : Edits (fun u => K u ∨ s₃.InGroup u g) P s s₂ :=
        Edits.mono (fun u hu => .inl hu) (.head hedit hedits₂)
      have hin : Edits (fun u => K u ∨ s₃.InGroup u g) P s₂ s₃ :=
        Edits.mono (fun u hu => .inr (.inl ⟨group₃, hg₃, hu⟩)) hedits₃
      exact edited_done (hout.trans hin) fun u hu =>
        hu.elim (fun hu => .inr (hunkicked u hu)) fun hu => .inl ((hiff u).mpr hu)
    | _ => exact fun _ => hkeep

theorem setAnonymousGroup_edited : Edited P U s (processSetAnonymousGroup json s) := by
  refine edited_onGroup fun groupname g group _ hf => ?_
  obtain ⟨hg, -⟩ := groupsFind_some hf
  exact edited_done (K := fun u => u = none)
    (.single (.anonymous (Table.live_iff.mpr ⟨group, hg⟩) rfl)) fun u hu =>
      .inl (List.mem_singleton.mpr hu)

/-! ## Roles -/

theorem createRole_edited (hreads : P.Reads json) : Edited P U s (processCreateRole json s) := by
  refine edited_checked fun fields _ => ?_
  obtain ⟨rolename, textName, textDescription⟩ := fields
  simp only
  cases hf : s.rolesFind rolename with
  | some found => exact edited_refuse _
  | none =>
    refine edited_done (K := fun _ => False) (.single (.addRole ?_ rfl rfl hf)) fun u hu => hu.elim
    intro type
    cases hacls : readAcls json with
    | none => exact ofAcls_nil
    | some acls => exact readAcls_ofRole hreads hacls type

theorem deleteRole_edited (h : s.Linked) : Edited P U s (processDeleteRole json s) := by
  refine edited_onRole fun rolename r role _ hf => ?_
  obtain ⟨hr, -⟩ := rolesFind_some hf
  let K : Option Bytes → Prop := fun u => s.Holds u r
  obtain ⟨s₁, hs₁, hedits₁, hr₁, hgroups₁, hanon₁⟩ :=
    roleRemoveAllClients_edits (K := K) (P := P) h hr fun e he => ⟨role, hr, .inl ⟨e, he, rfl⟩⟩
  have hsame : ∀ u g, s₁.InGroup u g ↔ s.InGroup u g := fun u g =>
    inGroup_congr (fun a => congrArg (fun t => (Table.get t a).map _) hgroups₁) hanon₁
  obtain ⟨kicks, s₂, hs₂, hiff, hedits₂, hr₂⟩ :=
    roleRemoveAllGroups_edits (K := K) (P := P) (linked_edits h hedits₁) hr₁
      fun u ⟨e, he, hu⟩ => ⟨role, hr, .inr ⟨e, he, (hsame u _).mp hu⟩⟩
  simp only [Option.bind_eq_bind, hs₁, hs₂, Option.bind_some]
  refine edited_done ((hedits₁.trans hedits₂).tail (.freeRole hr₂ rfl rfl)) fun u hu => .inl ?_
  obtain ⟨role', hr', hhold⟩ := hu
  rw [hr] at hr'
  cases hr'
  rw [List.mem_append, List.mem_map, hiff]
  rcases hhold with ⟨e, he, rfl⟩ | ⟨e, he, hu⟩
  · exact .inl ⟨e, he, rfl⟩
  · exact .inr ⟨e, he, (hsame u _).mpr hu⟩

omit [JsonLibrary] in
/-- A role's entries change. -/
theorem edit_setRole (hr : s.localRoles.get r = some role) {f : Role → Role}
    (hname : (f role).rolename = role.rolename) (hclients : (f role).clientlist = role.clientlist)
    (hgroups : (f role).grouplist = role.grouplist) (hkind : P.OfRole role → P.OfRole (f role)) :
    Edit (fun u => s.Holds u r) P s (s.setRole r f) :=
  .role hr hname hclients hgroups hkind fun _ _ hu => hu

theorem modifyRole_edited (hreads : P.Reads json) :
    Edited P (fun u => Unkicked s json u .modifyRole) s (processModifyRole json s) := by
  refine edited_onRole fun rolename r role hjson hf => ?_
  obtain ⟨hr, -⟩ := rolesFind_some hf
  refine edited_done (.single (edit_setRole hr rfl rfl rfl fun hkind type => ?_)) fun u hu =>
    .inr ⟨rolename, r, role, hjson, hf, hu⟩
  cases hacls : readAcls json with
  | none => exact hkind type
  | some acls => exact readAcls_ofRole hreads hacls type

omit [JsonLibrary] in
/-- `addRoleACL` and `removeRoleACL` kick who has the role. -/
theorem acl_edited (h : s.Linked) (hr : s.localRoles.get r = some role) {type : AclType}
    {acls : AclList} (hacls : P.OfAcls (role.acls type).entries → P.OfAcls acls.entries)
    {f : Role → Role}
    (hf : f role = { role with acls := Function.update role.acls type acls }) :
    Edited P U s ((roleKickAll (s.setRole r f) role).bind fun kicks =>
      done (s.setRole r f) kicks) := by
  have hedit : Edit (fun u => s.Holds u r) P s (s.setRole r f) := by
    refine edit_setRole hr (by rw [hf]) (by rw [hf]) (by rw [hf]) fun hkind type' => ?_
    rw [hf]
    show P.OfAcls (Function.update role.acls type acls type').entries
    by_cases htype : type' = type
    · rw [htype, Function.update_self]
      exact hacls (hkind type)
    · rw [Function.update_of_ne htype]
      exact hkind type'
  have hget : (s.setRole r f).localRoles.get r = some (f role) := Table.get_modify_self hr
  obtain ⟨kicks, hkicks, hiff⟩ := roleKickAll_some (linked_edit h hedit) hget
  have hkicks' : roleKickAll (s.setRole r f) role = some kicks := by
    rw [← hkicks, hf]
    rfl
  rw [hkicks', Option.bind_some]
  refine edited_done (.single hedit) fun u hu => .inl ((hiff u).mpr ?_)
  obtain ⟨role', hr', hhold⟩ := hu
  rw [hr] at hr'
  cases hr'
  refine ⟨f role, hget, ?_⟩
  rw [hf]
  exact hhold

theorem addRoleAcl_edited (h : s.Linked) (hreads : P.Reads json) :
    Edited P U s (processAddRoleAcl json s) := by
  refine edited_onRole fun rolename r role _ hf => edited_checked fun entry _ => ?_
  obtain ⟨type, topic⟩ := entry
  simp only
  split
  · exact edited_refuse _
  · rename_i hnot
    have hnew : topic ∉ (role.acls type).entries.map (·.topic) :=
      UtHash.find_none (Option.not_isSome_iff_eq_none.mp hnot)
    refine acl_edited h (rolesFind_some hf).1 (fun hkind => ?_) rfl
    rw [AclList.entries_add]
    exact ofAcls_add hreads.acl (fun _ => hnew) hkind

theorem removeRoleAcl_edited (h : s.Linked) : Edited P U s (processRemoveRoleAcl json s) := by
  refine edited_onRole fun rolename r role _ hf => edited_checked fun entry _ => ?_
  obtain ⟨type, topic⟩ := entry
  simp only
  cases (role.acls type).find topic with
  | some found =>
    exact acl_edited h (rolesFind_some hf).1 (ofAcls_sublist (UtHash.entries_delete _ _)) rfl
  | none => exact edited_refuse _

theorem setDefaultAclAccess_edited :
    Edited P (fun u => Unkicked s json u .setDefaultACLAccess) s
      (processSetDefaultAclAccess json s) := by
  unfold processSetDefaultAclAccess
  split
  · exact edited_done (K := fun _ => True) (.single (.defaults fun _ => trivial)) fun _ _ =>
      .inr trivial
  · exact edited_refuse _

/-- **Every command makes edits.** -/
theorem process_edited (h : s.Linked) (hreads : P.Reads json) (hsets : P.Sets crypto rand)
    (command : Command) (hmild : Mild s json command) :
    Edited P (fun u => Unkicked s json u command) s (command.process crypto rand json s) := by
  cases command with
  | setDefaultACLAccess => exact setDefaultAclAccess_edited
  | createClient => exact createClient_edited h hmild hreads hsets
  | deleteClient => exact deleteClient_edited h
  | modifyClient => exact modifyClient_edited h hreads hsets
  | setClientPassword => exact setClientPassword_edited hsets
  | setClientId => exact setClientId_edited
  | addClientRole => exact addClientRole_edited h hreads
  | removeClientRole => exact removeClientRole_edited h
  | enableClient => exact enableClient_edited
  | disableClient => exact disableClient_edited
  | addGroupClient => exact addGroupClient_edited h hreads
  | createGroup => exact createGroup_edited hmild
  | deleteGroup => exact deleteGroup_edited h hmild
  | modifyGroup => exact modifyGroup_edited h hmild hreads
  | removeGroupClient => exact removeGroupClient_edited h
  | addGroupRole => exact addGroupRole_edited h hreads
  | removeGroupRole => exact removeGroupRole_edited h
  | setAnonymousGroup => exact setAnonymousGroup_edited
  | createRole => exact createRole_edited hreads
  | modifyRole => exact modifyRole_edited hreads
  | deleteRole => exact deleteRole_edited h
  | addRoleACL => exact addRoleAcl_edited h hreads
  | removeRoleACL => exact removeRoleAcl_edited h

end AdaptiveMqtt.Dynsec
