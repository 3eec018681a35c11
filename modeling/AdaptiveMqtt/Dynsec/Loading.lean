import AdaptiveMqtt.Dynsec.Saved
import AdaptiveMqtt.Dynsec.Steps

/-!
# Loading what was saved

What loading a saved element adds to a store. Loading makes edits: objects come behind the others,
which is their place by name, and references are linked one by one.
-/

namespace AdaptiveMqtt.Dynsec

open Lib Security Links Store

/-! ## A store without addresses -/

def Client.own (client : Client) :
    Bytes × Option Bytes × Option Bytes × Option Bytes × Pw × Bool :=
  (client.username, client.clientid, client.textName, client.textDescription, client.pw,
    client.disabled)

def Group.own (group : Group) : Bytes × Option Bytes × Option Bytes :=
  (group.groupname, group.textName, group.textDescription)

def Role.own (role : Role) :
    Bytes × Option Bytes × Option Bytes × (AclType → List DynsecAcl) :=
  (role.rolename, role.textName, role.textDescription, fun type => (role.acls type).entries)

/-- The name and the priority of a reference. -/
def named (e : Ref) : Bytes × Int32 := (e.name, priority e)

/-- The objects in their order, and who refers to whom. -/
structure Facts where
  clients : List (Bytes × Option Bytes × Option Bytes × Option Bytes × Pw × Bool)
  groups : List (Bytes × Option Bytes × Option Bytes)
  roles : List (Bytes × Option Bytes × Option Bytes × (AclType → List DynsecAcl))
  clientRole : Bytes → Bytes → Int32 → Prop
  clientGroup : Bytes → Bytes → Int32 → Prop
  groupRole : Bytes → Bytes → Int32 → Prop
  defaultAccess : DefaultAccess

def Store.facts (s : Store) : Facts where
  clients := s.localClients.entries.map fun e => e.2.own
  groups := s.localGroups.entries.map fun e => e.2.own
  roles := s.localRoles.entries.map fun e => e.2.own
  clientRole := Joined s.clientRoles
  clientGroup := Joined s.clientGroups
  groupRole := Joined s.groupRoles
  defaultAccess := s.defaultAccess

variable {s x : Store} {c g r : Addr} {client : Client} {group : Group} {role : Role}
  {prio : Int32} {P : Kind} {crypto : Crypto} {base : List Ref}

section Facts

theorem facts_linkClientRole (hc : x.localClients.get c = some client)
    (hr : x.localRoles.get r = some role) (prio : Int32) :
    (linkClientRole c r client role prio x).facts = { x.facts with
      clientRole := fun n m v => x.facts.clientRole n m v ∨
        n = client.username ∧ m = role.rolename ∧ v = prio } := by
  have hjoined : Joined (linkClientRole c r client role prio x).clientRoles = fun n m v =>
      Joined x.clientRoles n m v ∨ n = client.username ∧ m = role.rolename ∧ v = prio :=
    funext fun n => funext fun m => funext fun v =>
      propext (joined_link (clientRoles_get hc) perm_hashAdd (view_modify _ _ hc))
  have hgroups : (linkClientRole c r client role prio x).clientGroups = x.clientGroups :=
    funext (view_modify_keep hc rfl)
  unfold Store.facts
  rw [hjoined, hgroups]
  simp only [Facts.mk.injEq, true_and]
  exact ⟨Table.map_modify hc rfl, rfl, Table.map_modify hr rfl, rfl, rfl⟩

theorem facts_linkGroupRole (hg : x.localGroups.get g = some group)
    (hr : x.localRoles.get r = some role) (prio : Int32) :
    (linkGroupRole g r group role prio x).facts = { x.facts with
      groupRole := fun n m v => x.facts.groupRole n m v ∨
        n = group.groupname ∧ m = role.rolename ∧ v = prio } := by
  have hjoined : Joined (linkGroupRole g r group role prio x).groupRoles = fun n m v =>
      Joined x.groupRoles n m v ∨ n = group.groupname ∧ m = role.rolename ∧ v = prio :=
    funext fun n => funext fun m => funext fun v =>
      propext (joined_link (groupRoles_get hg) perm_hashAdd (view_modify _ _ hg))
  unfold Store.facts
  rw [hjoined]
  simp only [Facts.mk.injEq, true_and]
  exact ⟨rfl, Table.map_modify hg rfl, Table.map_modify hr rfl, rfl, rfl, rfl⟩

theorem facts_linkClientGroup (hc : x.localClients.get c = some client)
    (hg : x.localGroups.get g = some group) (prio : Int32) :
    (linkClientGroup c g client group prio x).facts = { x.facts with
      clientGroup := fun n m v => x.facts.clientGroup n m v ∨
        n = client.username ∧ m = group.groupname ∧ v = prio } := by
  have hjoined : Joined (linkClientGroup c g client group prio x).clientGroups = fun n m v =>
      Joined x.clientGroups n m v ∨ n = client.username ∧ m = group.groupname ∧ v = prio :=
    funext fun n => funext fun m => funext fun v =>
      propext (joined_link (clientGroups_get hc) perm_hashAdd (view_modify _ _ hc))
  have hroles : (linkClientGroup c g client group prio x).clientRoles = x.clientRoles :=
    funext (view_modify_keep hc rfl)
  have hgroups : (linkClientGroup c g client group prio x).groupRoles = x.groupRoles :=
    funext (view_modify_keep hg rfl)
  unfold Store.facts
  rw [hjoined, hroles, hgroups]
  simp only [Facts.mk.injEq, true_and]
  exact ⟨Table.map_modify hc rfl, Table.map_modify hg rfl, rfl, rfl⟩

end Facts

/-! ## Objects behind the others -/

/-- The name comes after those of all objects. -/
def Last {α : Type} (name : α → Bytes) (t : Table Addr α) (new : Bytes) : Prop :=
  ∀ e ∈ t.entries, chars (name e.2) < chars new

section Last

variable {α : Type} {name : α → Bytes} {t : Table Addr α} {v : α} {a : Addr}

/-- The last place is the place by name. -/
theorem addLast_eq (h : Last name t (name v)) (ha : t.get a = none) :
    addLast t a v = t.insert (inNameOrder name v) a v := by
  refine Table.ext ((Table.entries_insert_last ha (fun _ _ => rfl) v).trans ?_)
  refine (Table.entries_insert_last ha (fun e he => ?_) v).symm
  exact inNameOrder_iff.mpr (le_of_lt (h e he))

theorem Last.search_none (h : Last name t (name v)) :
    t.search (fun u => name u = name v) = none := by
  refine Table.search_none.mpr fun k u hu hname => ?_
  have hlt := h (k, u) (Table.mem_entries_iff.mpr hu)
  simp only [of_decide_eq_true hname, lt_irrefl] at hlt

theorem map_addLast {β : Type} (view : α → β) (ha : t.get a = none) :
    (addLast t a v).entries.map (fun e => view e.2) =
      t.entries.map (fun e => view e.2) ++ [view v] := by
  unfold addLast
  rw [Table.entries_insert_last ha fun _ _ => rfl, List.map_append]
  rfl

theorem sortByName_eq (h : t.InOrder fun v => chars (name v)) : sortByName name t = t := by
  refine Table.ext (List.mergeSort_of_pairwise (h.imp fun hle => ?_))
  exact decide_eq_true (Int32.not_lt.mp (mt pos_strcmp.mp (not_lt.mpr hle)))

end Last

/-- A good store while it is loaded. -/
structure Loading (P : Kind) (x : Store) (facts : Facts) : Prop where
  linked : x.Linked
  ordered : x.Ordered P
  facts : x.facts = facts
  anonymous : x.dynsecAnonymousGroup = none

theorem Loading.edit {facts facts' : Facts} (h : Loading P x facts) {x' : Store}
    (he : Edit (fun _ => True) P x x') (hfacts : x'.facts = facts')
    (hanon : x'.dynsecAnonymousGroup = x.dynsecAnonymousGroup) : Loading P x' facts' :=
  ⟨linked_edit h.linked he, ordered_edit h.ordered he, hfacts, hanon.trans h.anonymous⟩

variable {facts : Facts}

theorem Last.of_facts {α β : Type} {name : α → Bytes} {view : α → β} {key : β → Bytes}
    (hkey : ∀ v, key (view v) = name v) {t : Table Addr α} {l : List β}
    (hl : t.entries.map (fun e => view e.2) = l) {new : Bytes}
    (h : ∀ b ∈ l, chars (key b) < chars new) : Last name t new := by
  intro e he
  rw [← hkey]
  exact h _ (hl ▸ List.mem_map.mpr ⟨e, he, rfl⟩)

/-- The names come one after the other. -/
theorem pairwise_cons_append {β : Type} {key : β → List Nat} {l l' : List β} {b : β}
    (h : (l ++ b :: l').Pairwise fun a b => key a < key b) :
    (∀ a ∈ l, key a < key b) ∧ ((l ++ [b]) ++ l').Pairwise fun a b => key a < key b := by
  refine ⟨fun a ha => (List.pairwise_append.mp h).2.2 a ha b List.mem_cons_self, ?_⟩
  rw [List.append_assoc]
  exact h

/-! ## Roles -/

variable [JsonLibrary] [LawfulJsonLibrary]

theorem loadRole_saved (h : Loading P x facts) (hclose : P.Close) (hkind : P.OfRole role)
    (hlast : ∀ b ∈ facts.roles, chars b.1 < chars role.rolename) :
    ∃ x', loadRole (roleToJson role) x = some x' ∧
      Loading P x' { facts with roles := facts.roles ++ [role.own] } := by
  obtain ⟨hname, htext, hdesc, hacls⟩ := roleToJson_fields role
  have hacls' : ∀ type, (aclsLoad ((roleToJson role).arrayField "acls") type).entries =
      (role.acls type).entries := by
    unfold Json.arrayField
    rw [hacls]
    exact aclsLoad_saved hclose hkind
  have htexts : ∀ text : Option Bytes, ∀ name, (roleToJson role).getObjectItem name =
      text.map .string → roleText (roleToJson role) name = some text := by
    intro text name hread
    unfold roleText
    rw [hread]
    cases text <;> rfl
  let new : Role := ⟨role.rolename, role.textName, role.textDescription,
    aclsLoad ((roleToJson role).arrayField "acls"), [], []⟩
  have hown : new.own = role.own :=
    congrArg (fun acls => (role.rolename, role.textName, role.textDescription, acls))
      (funext hacls')
  have hfresh := (h.linked.fresh x.next le_rfl).2.2
  have hroles : x.localRoles.entries.map (fun e => e.2.own) = facts.roles :=
    congrArg Facts.roles h.facts
  have hlast' : Last Role.rolename x.localRoles new.rolename :=
    Last.of_facts (fun _ => rfl : ∀ v : Role, v.own.1 = v.rolename) hroles hlast
  have hedit : Edit (fun _ => True) P x (x.addRole new) :=
    .addRole (fun type => (hacls' type).symm ▸ hkind type) rfl rfl (Last.search_none hlast')
  have hplace : addLast x.localRoles x.next new =
      x.localRoles.insert (inNameOrder (·.rolename) new) x.next new := addLast_eq hlast' hfresh
  refine ⟨x.addRole new, ?_, h.edit hedit ?_ rfl⟩
  · unfold loadRole
    rw [htexts (some role.rolename) "rolename" hname, htexts role.textName "textname" htext,
      htexts role.textDescription "textdescription" hdesc]
    simp only [Option.bind_eq_bind, Option.bind_some]
    unfold Store.addRole
    rw [← hplace]
    rfl
  · rw [← h.facts]
    have happend := map_addLast (v := new) Role.own hfresh
    rw [hplace, hown] at happend
    unfold Store.facts
    simp only [Facts.mk.injEq]
    exact ⟨rfl, rfl, happend, rfl, rfl, rfl, rfl⟩

theorem loadRoles_saved (hclose : P.Close) (roles : List Role)
    (hkind : ∀ role ∈ roles, P.OfRole role) : ∀ {x facts}, Loading P x facts →
    (facts.roles ++ roles.map Role.own).Pairwise (fun a b => chars a.1 < chars b.1) →
    ∃ x', (roles.map roleToJson).foldlM (fun s json => loadRole json s) x = some x' ∧
      Loading P x' { facts with roles := facts.roles ++ roles.map Role.own } := by
  induction roles with
  | nil =>
    intro x facts h _
    refine ⟨x, rfl, ?_⟩
    rw [List.map_nil, List.append_nil]
    exact h
  | cons role roles ih =>
    intro x facts h hsorted
    obtain ⟨hrole, hroles⟩ := List.forall_mem_cons.mp hkind
    have hnext := pairwise_cons_append hsorted
    obtain ⟨x₁, hx₁, h₁⟩ := loadRole_saved h hclose hrole hnext.1
    obtain ⟨x₂, hx₂, h₂⟩ := ih hroles h₁ hnext.2
    refine ⟨x₂, ?_, ?_⟩
    · rw [List.map_cons, List.foldlM_cons, hx₁]
      exact hx₂
    · rw [List.append_assoc] at h₂
      exact h₂

/-! ## Clients -/

/-- What OpenSSL decodes is what it encoded. -/
def Crypto.Faithful (crypto : Crypto) : Prop :=
  ∀ text, text ≠ [] → crypto.base64Decode (crypto.base64Encode text) = some text

/-- A password that can be saved. -/
def Pw.Whole (pw : Pw) : Prop :=
  pw = Pw.zero ∨ pw.valid = true ∧ pw.salt.length = 12 ∧ pw.passwordHash.length = 64 ∧
    1 ≤ pw.iterations

theorem loadPw_saved (hcrypto : crypto.Faithful) (hpw : client.pw.Whole) :
    loadPw crypto (clientTree crypto client) = some client.pw := by
  obtain ⟨-, -, -, -, -, -, hsalt, hpassword, hiterations⟩ := clientTree_fields crypto client
  unfold loadPw
  rw [hsalt, hpassword, hiterations]
  rcases hpw with hzero | ⟨hvalid, hsaltLen, hhashLen, hpos⟩
  · rw [hzero]
    rfl
  · have hsalt' : client.pw.salt ≠ [] := by
      intro h
      rw [h] at hsaltLen
      cases hsaltLen
    have hhash' : client.pw.passwordHash ≠ [] := by
      intro h
      rw [h] at hhashLen
      cases hhashLen
    have hcheck : ¬ client.pw.iterations < 1 := Int32.not_lt.mpr hpos
    simp only [hvalid, if_true, hcrypto _ hsalt', hcrypto _ hhash', hsaltLen, hhashLen, and_self]
    rw [if_neg hcheck, ← hvalid]

omit [LawfulJsonLibrary] in
theorem textOf_saved {json : Json} {name : String} {text : Option Bytes}
    (h : json.getObjectItem name = text.map .string) : textOf json name = text := by
  unfold textOf
  rw [h]
  cases text <;> rfl

omit [JsonLibrary] [LawfulJsonLibrary] in
/-- A name that is among the facts is found. -/
theorem Loading.rolesFind (h : Loading P x facts) {rolename : Bytes}
    (hmem : ∃ b ∈ facts.roles, b.1 = rolename) :
    ∃ r role, x.rolesFind rolename = some (r, role) := by
  obtain ⟨b, hb, rfl⟩ := hmem
  rw [← h.facts] at hb
  obtain ⟨e, he, rfl⟩ := List.mem_map.mp hb
  exact ⟨e.1, e.2, h.linked.rolesFind (Table.mem_entries he)⟩

omit [JsonLibrary] [LawfulJsonLibrary] in
theorem Loading.clientsFind (h : Loading P x facts) {username : Bytes}
    (hmem : ∃ b ∈ facts.clients, b.1 = username) :
    ∃ c client, x.clientsFind username = some (c, client) := by
  obtain ⟨b, hb, rfl⟩ := hmem
  rw [← h.facts] at hb
  obtain ⟨e, he, rfl⟩ := List.mem_map.mp hb
  exact ⟨e.1, e.2, h.linked.clientsFind (Table.mem_entries he)⟩

omit [JsonLibrary] [LawfulJsonLibrary] in
theorem Loading.role_notMem (h : Loading P x facts) (hc : x.localClients.get c = some client)
    {rolename : Bytes} (hnew : ∀ v, ¬ facts.clientRole client.username rolename v) :
    rolename ∉ client.rolelist.map (·.name) := by
  intro hmem
  obtain ⟨e, he, rfl⟩ := List.mem_map.mp hmem
  refine hnew e.label ?_
  rw [← h.facts]
  exact (h.linked.clientRole.named.mem_iff (clientRoles_get hc)).mp ⟨e.addr, he⟩

omit [JsonLibrary] [LawfulJsonLibrary] in
/-- What the head of a list and the rest of it give. -/
theorem or_and_cons {A B : Prop} {k k' : Bytes} {v v' : Int32} {l : List (Bytes × Int32)} :
    (A ∨ B ∧ k = k' ∧ v = v') ∨ B ∧ (k, v) ∈ l ↔ A ∨ B ∧ (k, v) ∈ (k', v') :: l := by
  rw [List.mem_cons, Prod.mk.injEq, and_or_left, or_assoc]

omit [JsonLibrary] [LawfulJsonLibrary] in
theorem loadClientRoles_saved (username : Bytes) (roles : List (Bytes × Int32)) :
    ∀ {x facts client}, Loading P x facts → x.localClients.get c = some client →
    client.username = username → (∀ m ∈ roles, P.prio m.2 ∧ ∃ b ∈ facts.roles, b.1 = m.1) →
    (∀ m ∈ roles, ∀ v, ¬ facts.clientRole username m.1 v) → (roles.map Prod.fst).Nodup →
    ∃ x', loadClientRoles c roles x = some x' ∧ Loading P x' { facts with
      clientRole := fun n m v => facts.clientRole n m v ∨ n = username ∧ (m, v) ∈ roles } := by
  induction roles with
  | nil =>
    intro x facts client h _ _ _ _ _
    refine ⟨x, rfl, ?_⟩
    simp only [List.not_mem_nil, and_false, or_false]
    exact h
  | cons m roles ih =>
    rintro x facts client h hc rfl hthere hnew hnodup
    obtain ⟨⟨hprio, hm⟩, hthere'⟩ := List.forall_mem_cons.mp hthere
    obtain ⟨hfirst, hrest⟩ := List.forall_mem_cons.mp hnew
    obtain ⟨hnot, hnodup'⟩ := List.nodup_cons.mp hnodup
    obtain ⟨r, role, hf⟩ := h.rolesFind hm
    obtain ⟨hr, hname⟩ := rolesFind_some hf
    have hfresh : role.rolename ∉ client.rolelist.map (·.name) :=
      h.role_notMem hc (hname ▸ hfirst)
    have hedit : Edit (fun _ => True) P x (linkClientRole c r client role m.2 x) :=
      .linkClientRole hc hr hfresh hprio trivial
    have h₁ := h.edit hedit ((facts_linkClientRole hc hr m.2).trans (by rw [h.facts])) rfl
    have hrest' : ∀ n ∈ roles, ∀ v, ¬ (facts.clientRole client.username n.1 v ∨
        client.username = client.username ∧ n.1 = role.rolename ∧ v = m.2) := by
      rintro n hn v (hold | ⟨-, heq, -⟩)
      · exact hrest n hn v hold
      · exact hnot (List.mem_map.mpr ⟨n, hn, heq.trans hname⟩)
    obtain ⟨x', hx', h'⟩ := ih h₁ (Table.get_modify_self hc) rfl hthere' hrest' hnodup'
    refine ⟨x', ?_, ?_⟩
    · unfold loadClientRoles
      rw [List.foldlM_cons, hc, hf]
      simp only [Option.bind_eq_bind, Option.bind_some]
      rw [rolelistClientAdd_new h.linked hc hr hfresh]
      exact hx'
    · simp only [or_and_cons, hname] at h'
      exact h'

omit [JsonLibrary] [LawfulJsonLibrary] in
theorem Loading.addClient (h : Loading P x facts) (hkind : P.OfClient client)
    (hroles : client.rolelist = []) (hgroups : client.grouplist = [])
    (hlast : ∀ b ∈ facts.clients, chars b.1 < chars client.username) :
    addLast x.localClients x.next client =
        x.localClients.insert (inNameOrder (·.username) client) x.next client ∧
      Loading P (x.addClient client) { facts with clients := facts.clients ++ [client.own] } := by
  have hfresh := (h.linked.fresh x.next le_rfl).1
  have hclients : x.localClients.entries.map (fun e => e.2.own) = facts.clients :=
    congrArg Facts.clients h.facts
  have hlast' : Last Client.username x.localClients client.username :=
    Last.of_facts (fun _ => rfl : ∀ v : Client, v.own.1 = v.username) hclients hlast
  have hplace : addLast x.localClients x.next client =
      x.localClients.insert (inNameOrder (·.username) client) x.next client :=
    addLast_eq hlast' hfresh
  refine ⟨hplace, h.edit (.addClient hkind hroles hgroups (Last.search_none hlast') trivial) ?_ rfl⟩
  have happend := map_addLast (v := client) Client.own hfresh
  rw [hplace] at happend
  have hnone : ∀ view : Client → Bytes × List Ref, (x.localClients.get x.next).map view = none := by
    intro view
    rw [hfresh, Option.map_none]
  have hroles' : ∀ a, (x.addClient client).clientRoles a =
      if a = x.next then some (client.username, []) else x.clientRoles a := by
    rw [← hroles]
    exact Store.Linked.view_insert (fun client => (client.username, client.rolelist)) _
      x.localClients x.next client
  have hgroups' : ∀ a, (x.addClient client).clientGroups a =
      if a = x.next then some (client.username, []) else x.clientGroups a := by
    rw [← hgroups]
    exact Store.Linked.view_insert (fun client => (client.username, client.grouplist)) _
      x.localClients x.next client
  have hjoined : Joined (x.addClient client).clientRoles = Joined x.clientRoles :=
    funext fun n => funext fun m => funext fun v => propext
      (joined_create (hnone _) hroles')
  have hjoined' : Joined (x.addClient client).clientGroups = Joined x.clientGroups :=
    funext fun n => funext fun m => funext fun v => propext
      (joined_create (hnone _) hgroups')
  rw [← h.facts]
  unfold Store.facts
  rw [hjoined, hjoined']
  simp only [Facts.mk.injEq, true_and]
  exact ⟨happend, rfl, rfl, rfl, rfl⟩

/-- The roles of a client among the facts. -/
def Client.hasRole (client : Client) (n m : Bytes) (v : Int32) : Prop :=
  n = client.username ∧ (m, v) ∈ client.rolelist.map named

theorem loadClient_saved (h : Loading P x facts) (hcrypto : crypto.Faithful)
    (hkind : P.OfClient client) (hpw : client.pw.Whole)
    (hlast : ∀ b ∈ facts.clients, chars b.1 < chars client.username)
    (hroles : ∀ e ∈ client.rolelist, P.prio (priority e) ∧ ∃ b ∈ facts.roles, b.1 = e.name)
    (hnodup : (client.rolelist.map (·.name)).Nodup)
    (hnew : ∀ n m v, facts.clientRole n m v → ∃ b ∈ facts.clients, b.1 = n) :
    ∃ x', loadClient crypto (clientTree crypto client) x = some x' ∧ Loading P x' { facts with
      clients := facts.clients ++ [client.own]
      clientRole := fun n m v => facts.clientRole n m v ∨ client.hasRole n m v } := by
  obtain ⟨hname, hid, htext, hdesc, hdisabled, hread, -, -, -⟩ := clientTree_fields crypto client
  let new : Client := ⟨client.username, client.clientid, client.textName, client.textDescription,
    client.pw, client.disabled, [], []⟩
  have hkind' : P.OfClient new := hkind
  obtain ⟨hplace, h₁⟩ := h.addClient hkind' rfl rfl hlast
  have hmembers : Json.members ((clientTree crypto client).arrayField "roles") "rolename" =
      client.rolelist.map named := by
    unfold Json.arrayField
    rw [hread]
    exact members_refsJson (by decide) (by decide) _
  have hget : (x.addClient new).localClients.get x.next = some new := by
    unfold Store.addClient
    rw [Table.get_insert, if_pos rfl]
  have hthere : ∀ m ∈ client.rolelist.map named, P.prio m.2 ∧ ∃ b ∈ facts.roles, b.1 = m.1 := by
    intro m hm
    obtain ⟨e, he, rfl⟩ := List.mem_map.mp hm
    exact hroles e he
  have hnone : ∀ m ∈ client.rolelist.map named, ∀ v, ¬ facts.clientRole client.username m.1 v := by
    intro m _ v hold
    obtain ⟨b, hb, heq⟩ := hnew _ _ _ hold
    exact lt_irrefl _ (heq ▸ hlast b hb)
  have hnodup' : ((client.rolelist.map named).map Prod.fst).Nodup := by
    rw [List.map_map]
    exact hnodup
  obtain ⟨x', hx', h'⟩ := loadClientRoles_saved client.username _ h₁ hget rfl hthere hnone hnodup'
  refine ⟨x', ?_, h'⟩
  have hdisabled' : boolOf (clientTree crypto client) "disabled" = client.disabled := by
    unfold boolOf
    rw [hdisabled]
    cases client.disabled <;> rfl
  unfold loadClient
  rw [hname, loadPw_saved hcrypto hpw, hmembers, textOf_saved hid, textOf_saved htext,
    textOf_saved hdesc, hdisabled', ← hx']
  unfold Store.addClient
  rw [← hplace]
  rfl

theorem loadClients_saved (hcrypto : crypto.Faithful) (clients : List Client)
    (hkind : ∀ client ∈ clients, P.OfClient client ∧ client.pw.Whole ∧
      (client.rolelist.map (·.name)).Nodup ∧ ∀ e ∈ client.rolelist, P.prio (priority e)) :
    ∀ {x facts}, Loading P x facts →
    (facts.clients ++ clients.map Client.own).Pairwise (fun a b => chars a.1 < chars b.1) →
    (∀ client ∈ clients, ∀ e ∈ client.rolelist, ∃ b ∈ facts.roles, b.1 = e.name) →
    (∀ n m v, facts.clientRole n m v → ∃ b ∈ facts.clients, b.1 = n) →
    ∃ x', (clients.map (clientTree crypto)).foldlM (fun s json => loadClient crypto json s) x =
        some x' ∧ Loading P x' { facts with
          clients := facts.clients ++ clients.map Client.own
          clientRole := fun n m v => facts.clientRole n m v ∨
            ∃ client ∈ clients, client.hasRole n m v } := by
  induction clients with
  | nil =>
    intro x facts h _ _ _
    refine ⟨x, rfl, ?_⟩
    simp only [List.map_nil, List.append_nil, List.not_mem_nil, false_and, exists_false, or_false]
    exact h
  | cons client clients ih =>
    intro x facts h hsorted hroles hnew
    obtain ⟨⟨hown, hpw, hnodup, hprio⟩, hkinds⟩ := List.forall_mem_cons.mp hkind
    obtain ⟨hthere, hroles'⟩ := List.forall_mem_cons.mp hroles
    have hnext := pairwise_cons_append hsorted
    obtain ⟨x₁, hx₁, h₁⟩ := loadClient_saved h hcrypto hown hpw hnext.1
      (fun e he => ⟨hprio e he, hthere e he⟩) hnodup hnew
    have hnew' : ∀ n m v, facts.clientRole n m v ∨ client.hasRole n m v →
        ∃ b ∈ facts.clients ++ [client.own], b.1 = n := by
      rintro n m v (hold | ⟨rfl, -⟩)
      · obtain ⟨b, hb, hname⟩ := hnew n m v hold
        exact ⟨b, List.mem_append_left _ hb, hname⟩
      · exact ⟨client.own, List.mem_append_right _ List.mem_cons_self, rfl⟩
    obtain ⟨x₂, hx₂, h₂⟩ := ih hkinds h₁ hnext.2 hroles' hnew'
    refine ⟨x₂, ?_, ?_⟩
    · rw [List.map_cons, List.foldlM_cons, hx₁]
      exact hx₂
    · simp only [List.append_assoc, or_assoc] at h₂
      simp only [List.mem_cons, exists_eq_or_imp]
      exact h₂

/-! ## Groups -/

omit [JsonLibrary] [LawfulJsonLibrary] in
theorem Loading.groupRole_notMem (h : Loading P x facts) (hg : x.localGroups.get g = some group)
    {rolename : Bytes} (hnew : ∀ v, ¬ facts.groupRole group.groupname rolename v) :
    rolename ∉ group.rolelist.map (·.name) := by
  intro hmem
  obtain ⟨e, he, rfl⟩ := List.mem_map.mp hmem
  refine hnew e.label ?_
  rw [← h.facts]
  exact (h.linked.groupRole.named.mem_iff (groupRoles_get hg)).mp ⟨e.addr, he⟩

omit [JsonLibrary] [LawfulJsonLibrary] in
theorem Loading.client_notMem (h : Loading P x facts) (hg : x.localGroups.get g = some group)
    {username : Bytes} (hnew : ∀ v, ¬ facts.clientGroup username group.groupname v) :
    username ∉ group.clientlist.map (·.name) := by
  intro hmem
  obtain ⟨e, he, rfl⟩ := List.mem_map.mp hmem
  refine hnew e.label ?_
  rw [← h.facts]
  exact h.linked.clientGroup.joined_symm.mpr
    ((h.linked.clientGroup.named'.mem_iff (groupClients_get hg)).mp ⟨e.addr, he⟩)

omit [JsonLibrary] [LawfulJsonLibrary] in
theorem loadGroupRoles_saved (groupname : Bytes) (roles : List (Bytes × Int32)) :
    ∀ {x facts group}, Loading P x facts → x.localGroups.get g = some group →
    group.groupname = groupname → (∀ m ∈ roles, P.prio m.2 ∧ ∃ b ∈ facts.roles, b.1 = m.1) →
    (∀ m ∈ roles, ∀ v, ¬ facts.groupRole groupname m.1 v) → (roles.map Prod.fst).Nodup →
    ∃ x' group', loadGroupRoles g roles x = some x' ∧ Loading P x' { facts with
      groupRole := fun n m v => facts.groupRole n m v ∨ n = groupname ∧ (m, v) ∈ roles } ∧
      x'.localGroups.get g = some group' ∧ group'.groupname = groupname := by
  induction roles with
  | nil =>
    intro x facts group h hg hgname _ _ _
    refine ⟨x, group, rfl, ?_, hg, hgname⟩
    simp only [List.not_mem_nil, and_false, or_false]
    exact h
  | cons m roles ih =>
    rintro x facts group h hg rfl hthere hnew hnodup
    obtain ⟨⟨hprio, hm⟩, hthere'⟩ := List.forall_mem_cons.mp hthere
    obtain ⟨hfirst, hrest⟩ := List.forall_mem_cons.mp hnew
    obtain ⟨hnot, hnodup'⟩ := List.nodup_cons.mp hnodup
    obtain ⟨r, role, hf⟩ := h.rolesFind hm
    obtain ⟨hr, hname⟩ := rolesFind_some hf
    have hfresh : role.rolename ∉ group.rolelist.map (·.name) :=
      h.groupRole_notMem hg (hname ▸ hfirst)
    have hedit : Edit (fun _ => True) P x (linkGroupRole g r group role m.2 x) :=
      .linkGroupRole hg hr hfresh hprio fun _ _ => trivial
    have h₁ := h.edit hedit ((facts_linkGroupRole hg hr m.2).trans (by rw [h.facts])) rfl
    have hrest' : ∀ n ∈ roles, ∀ v, ¬ (facts.groupRole group.groupname n.1 v ∨
        group.groupname = group.groupname ∧ n.1 = role.rolename ∧ v = m.2) := by
      rintro n hn v (hold | ⟨-, heq, -⟩)
      · exact hrest n hn v hold
      · exact hnot (List.mem_map.mpr ⟨n, hn, heq.trans hname⟩)
    obtain ⟨x', group', hx', h', hg'⟩ :=
      ih h₁ (Table.get_modify_self hg) rfl hthere' hrest' hnodup'
    refine ⟨x', group', ?_, ?_, hg'⟩
    · unfold loadGroupRoles
      rw [List.foldlM_cons, hg, hf]
      simp only [Option.bind_eq_bind, Option.bind_some]
      rw [rolelistGroupAdd_new h.linked hg hr hfresh]
      exact hx'
    · simp only [or_and_cons, hname] at h'
      exact h'

omit [JsonLibrary] [LawfulJsonLibrary] in
theorem groupAddClients_saved (groupname : Bytes) (clients : List (Bytes × Int32)) :
    ∀ {x facts group}, Loading P x facts → x.localGroups.get g = some group →
    group.groupname = groupname → (∀ m ∈ clients, P.prio m.2 ∧ ∃ b ∈ facts.clients, b.1 = m.1) →
    (∀ m ∈ clients, ∀ v, ¬ facts.clientGroup m.1 groupname v) → (clients.map Prod.fst).Nodup →
    ∃ x', groupAddClients groupname clients x = some x' ∧ Loading P x' { facts with
      clientGroup := fun n m v => facts.clientGroup n m v ∨ m = groupname ∧ (n, v) ∈ clients } := by
  induction clients with
  | nil =>
    intro x facts group h _ _ _ _ _
    refine ⟨x, rfl, ?_⟩
    simp only [List.not_mem_nil, and_false, or_false]
    exact h
  | cons m clients ih =>
    rintro x facts group h hg rfl hthere hnew hnodup
    obtain ⟨⟨hprio, hm⟩, hthere'⟩ := List.forall_mem_cons.mp hthere
    obtain ⟨hfirst, hrest⟩ := List.forall_mem_cons.mp hnew
    obtain ⟨hnot, hnodup'⟩ := List.nodup_cons.mp hnodup
    obtain ⟨c, client, hf⟩ := h.clientsFind hm
    obtain ⟨hc, hname⟩ := clientsFind_some hf
    have hfresh : client.username ∉ group.clientlist.map (·.name) :=
      h.client_notMem hg (hname ▸ hfirst)
    have hedit : Edit (fun _ => True) P x (linkClientGroup c g client group m.2 x) :=
      .linkClientGroup hc hg hfresh hprio trivial
    have h₁ := h.edit hedit ((facts_linkClientGroup hc hg m.2).trans (by rw [h.facts])) rfl
    have hrest' : ∀ n ∈ clients, ∀ v, ¬ (facts.clientGroup n.1 group.groupname v ∨
        n.1 = client.username ∧ group.groupname = group.groupname ∧ v = m.2) := by
      rintro n hn v (hold | ⟨heq, -⟩)
      · exact hrest n hn v hold
      · exact hnot (List.mem_map.mpr ⟨n, hn, heq.trans hname⟩)
    obtain ⟨x', hx', h'⟩ := ih h₁ (Table.get_modify_self hg) rfl hthere' hrest' hnodup'
    refine ⟨x', ?_, ?_⟩
    · unfold groupAddClients
      rw [List.foldlM_cons, ← hname]
      simp only [Option.bind_eq_bind]
      rw [groupsAddClient_new h.linked hc hg hfresh]
      exact hx'
    · simp only [and_left_comm (b := _ = group.groupname), or_and_cons, hname] at h'
      exact h'

omit [JsonLibrary] [LawfulJsonLibrary] in
theorem Loading.addGroup (h : Loading P x facts) (hroles : group.rolelist = [])
    (hclients : group.clientlist = [])
    (hlast : ∀ b ∈ facts.groups, chars b.1 < chars group.groupname) :
    addLast x.localGroups x.next group =
        x.localGroups.insert (inNameOrder (·.groupname) group) x.next group ∧
      Loading P (x.addGroup group) { facts with groups := facts.groups ++ [group.own] } := by
  have hfresh := (h.linked.fresh x.next le_rfl).2.1
  have hgroups : x.localGroups.entries.map (fun e => e.2.own) = facts.groups :=
    congrArg Facts.groups h.facts
  have hlast' : Last Group.groupname x.localGroups group.groupname :=
    Last.of_facts (fun _ => rfl : ∀ v : Group, v.own.1 = v.groupname) hgroups hlast
  have hplace : addLast x.localGroups x.next group =
      x.localGroups.insert (inNameOrder (·.groupname) group) x.next group :=
    addLast_eq hlast' hfresh
  refine ⟨hplace, h.edit (.addGroup hroles hclients (Last.search_none hlast')) ?_ rfl⟩
  have happend := map_addLast (v := group) Group.own hfresh
  rw [hplace] at happend
  have hroles' : ∀ a, (x.addGroup group).groupRoles a =
      if a = x.next then some (group.groupname, []) else x.groupRoles a := by
    rw [← hroles]
    exact Store.Linked.view_insert (fun group => (group.groupname, group.rolelist)) _
      x.localGroups x.next group
  have hnone : (x.localGroups.get x.next).map (fun group => (group.groupname, group.rolelist)) =
      none := by
    rw [hfresh, Option.map_none]
  have hjoined : Joined (x.addGroup group).groupRoles = Joined x.groupRoles :=
    funext fun n => funext fun m => funext fun v => propext (joined_create hnone hroles')
  rw [← h.facts]
  unfold Store.facts
  rw [hjoined]
  simp only [Facts.mk.injEq, true_and]
  exact ⟨rfl, happend, rfl, rfl, rfl, rfl⟩

/-- The roles of a group among the facts. -/
def Group.hasRole (group : Group) (n m : Bytes) (v : Int32) : Prop :=
  n = group.groupname ∧ (m, v) ∈ group.rolelist.map named

def Group.hasClient (group : Group) (n m : Bytes) (v : Int32) : Prop :=
  m = group.groupname ∧ (n, v) ∈ group.clientlist.map named

/-- What is known of the groups that are loaded. -/
structure Facts.Bounded (facts : Facts) : Prop where
  groupRole : ∀ n m v, facts.groupRole n m v → ∃ b ∈ facts.groups, b.1 = n
  clientGroup : ∀ n m v, facts.clientGroup n m v → ∃ b ∈ facts.groups, b.1 = m

structure Group.Fits (P : Kind) (group : Group) (facts : Facts) : Prop where
  roles : ∀ e ∈ group.rolelist, P.prio (priority e) ∧ ∃ b ∈ facts.roles, b.1 = e.name
  clients : ∀ e ∈ group.clientlist, P.prio (priority e) ∧ ∃ b ∈ facts.clients, b.1 = e.name
  rolenames : (group.rolelist.map (·.name)).Nodup
  usernames : (group.clientlist.map (·.name)).Nodup

theorem loadGroup_saved (h : Loading P x facts) (hfits : group.Fits P facts)
    (hlast : ∀ b ∈ facts.groups, chars b.1 < chars group.groupname) (hbound : facts.Bounded) :
    ∃ x', loadGroup (groupTree group) x = some x' ∧ Loading P x' { facts with
      groups := facts.groups ++ [group.own]
      groupRole := fun n m v => facts.groupRole n m v ∨ group.hasRole n m v
      clientGroup := fun n m v => facts.clientGroup n m v ∨ group.hasClient n m v } := by
  obtain ⟨hname, htext, hdesc, hread, hread'⟩ := groupTree_fields group
  let new : Group := ⟨group.groupname, group.textName, group.textDescription, [], []⟩
  have hroles : new.rolelist = [] := rfl
  obtain ⟨hplace, h₁⟩ := h.addGroup hroles rfl hlast
  have hmembers : Json.members ((groupTree group).arrayField "roles") "rolename" =
      group.rolelist.map named := by
    unfold Json.arrayField
    rw [hread]
    exact members_refsJson (by decide) (by decide) _
  have hmembers' : Json.members ((groupTree group).arrayField "clients") "username" =
      group.clientlist.map named := by
    unfold Json.arrayField
    rw [hread']
    exact members_refsJson (by decide) (by decide) _
  have hget : (x.addGroup new).localGroups.get x.next = some new := by
    unfold Store.addGroup
    rw [Table.get_insert, if_pos rfl]
  have hafter : ∀ b ∈ facts.groups, b.1 ≠ group.groupname := fun b hb heq =>
    lt_irrefl _ (heq ▸ hlast b hb)
  have hthere : ∀ m ∈ group.rolelist.map named, P.prio m.2 ∧ ∃ b ∈ facts.roles, b.1 = m.1 := by
    intro m hm
    obtain ⟨e, he, rfl⟩ := List.mem_map.mp hm
    exact hfits.roles e he
  have hthere' : ∀ m ∈ group.clientlist.map named,
      P.prio m.2 ∧ ∃ b ∈ facts.clients, b.1 = m.1 := by
    intro m hm
    obtain ⟨e, he, rfl⟩ := List.mem_map.mp hm
    exact hfits.clients e he
  have hnone : ∀ m ∈ group.rolelist.map named, ∀ v, ¬ facts.groupRole group.groupname m.1 v := by
    intro m _ v hold
    obtain ⟨b, hb, heq⟩ := hbound.groupRole _ _ _ hold
    exact hafter b hb heq
  have hnone' : ∀ m ∈ group.clientlist.map named, ∀ v,
      ¬ facts.clientGroup m.1 group.groupname v := by
    intro m _ v hold
    obtain ⟨b, hb, heq⟩ := hbound.clientGroup _ _ _ hold
    exact hafter b hb heq
  have hnodup : ((group.rolelist.map named).map Prod.fst).Nodup := by
    rw [List.map_map]
    exact hfits.rolenames
  have hnodup' : ((group.clientlist.map named).map Prod.fst).Nodup := by
    rw [List.map_map]
    exact hfits.usernames
  obtain ⟨x₁, group₁, hx₁, h₂, hg₁, hname₁⟩ :=
    loadGroupRoles_saved group.groupname _ h₁ hget rfl hthere hnone hnodup
  obtain ⟨x₂, hx₂, h₃⟩ :=
    groupAddClients_saved group.groupname _ h₂ hg₁ hname₁ hthere' hnone' hnodup'
  refine ⟨x₂, ?_, h₃⟩
  have hstart : loadGroupRoles x.next (group.rolelist.map named)
      { x with localGroups := addLast x.localGroups x.next new, next := x.next + 1 } = some x₁ := by
    rw [← hx₁, hplace]
    rfl
  unfold loadGroup
  rw [hname, hmembers, hmembers', textOf_saved htext, textOf_saved hdesc]
  exact (congrArg (Option.bind · fun s => groupAddClients group.groupname
    (group.clientlist.map named) s) hstart).trans hx₂

theorem loadGroups_saved (groups : List Group) : ∀ {x facts}, Loading P x facts →
    (facts.groups ++ groups.map Group.own).Pairwise (fun a b => chars a.1 < chars b.1) →
    (∀ group ∈ groups, group.Fits P facts) → facts.Bounded →
    ∃ x', (groups.map groupTree).foldlM (fun s json => loadGroup json s) x = some x' ∧
      Loading P x' { facts with
        groups := facts.groups ++ groups.map Group.own
        groupRole := fun n m v => facts.groupRole n m v ∨ ∃ group ∈ groups, group.hasRole n m v
        clientGroup := fun n m v => facts.clientGroup n m v ∨
          ∃ group ∈ groups, group.hasClient n m v } := by
  induction groups with
  | nil =>
    intro x facts h _ _ _
    refine ⟨x, rfl, ?_⟩
    simp only [List.map_nil, List.append_nil, List.not_mem_nil, false_and, exists_false, or_false]
    exact h
  | cons group groups ih =>
    intro x facts h hsorted hfits hbound
    obtain ⟨hfit, hfits'⟩ := List.forall_mem_cons.mp hfits
    have hnext := pairwise_cons_append hsorted
    obtain ⟨x₁, hx₁, h₁⟩ := loadGroup_saved h hfit hnext.1 hbound
    have hnew : group.own ∈ facts.groups ++ [group.own] :=
      List.mem_append_right _ List.mem_cons_self
    have hold : ∀ {n}, (∃ b ∈ facts.groups, b.1 = n) → ∃ b ∈ facts.groups ++ [group.own], b.1 = n := by
      rintro n ⟨b, hb, hname⟩
      exact ⟨b, List.mem_append_left _ hb, hname⟩
    obtain ⟨x₂, hx₂, h₂⟩ := ih h₁ hnext.2
      (fun other hother => ⟨(hfits' other hother).roles, (hfits' other hother).clients,
        (hfits' other hother).rolenames, (hfits' other hother).usernames⟩)
      ⟨fun n m v hv => hv.elim (fun hv => hold (hbound.groupRole n m v hv))
          fun hv => ⟨group.own, hnew, hv.1.symm⟩,
        fun n m v hv => hv.elim (fun hv => hold (hbound.clientGroup n m v hv))
          fun hv => ⟨group.own, hnew, hv.1.symm⟩⟩
    refine ⟨x₂, ?_, ?_⟩
    · rw [List.map_cons, List.foldlM_cons, hx₁]
      exact hx₂
    · simp only [List.append_assoc, or_assoc] at h₂
      simp only [List.mem_cons, exists_eq_or_imp]
      exact h₂

end AdaptiveMqtt.Dynsec
