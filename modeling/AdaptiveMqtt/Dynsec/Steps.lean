import AdaptiveMqtt.Dynsec.Edits
import AdaptiveMqtt.Dynsec.Handle
import AdaptiveMqtt.Lib.FirstMatch

/-!
# The functions on a linked store

What the functions of `rolelist.c`, `clients.c`, `groups.c` and `roles.c` do to a linked store:
one edit for a reference, edits one after the other for a loop over a list. A loop that takes
the elements of a list away works on the list it goes through: every turn takes its head.
-/

namespace AdaptiveMqtt.Dynsec

open Lib Security Links Store

variable {s s' : Store} {c g r : Addr} {client : Client} {group : Group} {role : Role}
  {prio : Int32} {K : Option Bytes → Prop} {P : Kind} {base : List Ref}
  {username groupname : Bytes}

/-! ## One reference -/

theorem rolelistAdd_new (h : ∀ e ∈ base, s.localRoles.live e.addr = true)
    (hnew : role.rolename ∉ base.map (·.name)) (prio : Int32) :
    rolelistAdd s base (some (r, role)) prio =
      some (Rc.success, hashAddInorder rolelistCmp ⟨role.rolename, r, prio⟩ base) := by
  simp only [rolelistAdd, hashFind_live h, find_eq_none.mpr hnew]

theorem rolelistAdd_old (h : ∀ e ∈ base, s.localRoles.live e.addr = true)
    (hold : role.rolename ∈ base.map (·.name)) (prio : Int32) :
    rolelistAdd s base (some (r, role)) prio = some (alreadyExists, base) := by
  obtain ⟨e, he⟩ := Option.isSome_iff_exists.mp (isSome_find.mpr hold)
  simp only [rolelistAdd, hashFind_live h, he]

theorem rolelistClientAdd_new (h : s.Linked) (hc : s.localClients.get c = some client)
    (hr : s.localRoles.get r = some role) (hnew : role.rolename ∉ client.rolelist.map (·.name))
    (prio : Int32) : rolelistClientAdd c client (some (r, role)) prio s =
      some (Rc.success, linkClientRole c r client role prio s) := by
  have hother : client.username ∉ role.clientlist.map (·.name) :=
    mt (h.clientRole.name_mem_iff (clientRoles_get hc) (roleClients_get hr)).mpr hnew
  have hlive : ∀ e ∈ role.clientlist, Table.live (s.localClients.modify c fun x =>
      { x with rolelist := hashAddInorder rolelistCmp ⟨role.rolename, r, prio⟩ client.rolelist })
      e.addr = true := fun e he => (Table.live_modify _ _ _ _).trans ((h.roleLive hr).1 e he)
  unfold rolelistClientAdd
  rw [rolelistAdd_new (h.clientLive hc).1 hnew]
  simp only [Option.bind_eq_bind, Option.bind_some, ne_eq, not_true_eq_false, if_false]
  rw [clientlistAdd]
  simp only [Store.setClient]
  rw [listAdd_live hlive hother]
  rfl

theorem rolelistClientAdd_old (h : s.Linked) (hc : s.localClients.get c = some client)
    (hold : role.rolename ∈ client.rolelist.map (·.name)) (prio : Int32) :
    rolelistClientAdd c client (some (r, role)) prio s = some (alreadyExists, s) := by
  unfold rolelistClientAdd
  rw [rolelistAdd_old (h.clientLive hc).1 hold]
  rfl

theorem rolelistClientRemove_eq (h : s.Linked) (hc : s.localClients.get c = some client)
    (hr : s.localRoles.get r = some role) : rolelistClientRemove c r s =
      if role.rolename ∈ client.rolelist.map (·.name) then
        some (Rc.success, unlinkClientRole c r client role s)
      else some (Rc.notFound, s) := by
  unfold rolelistClientRemove
  rw [hc, hr]
  simp only [Option.bind_eq_bind, Option.bind_some, rolelistRemoveRole]
  rw [hashFind_live (h.clientLive hc).1]
  by_cases hold : role.rolename ∈ client.rolelist.map (·.name)
  · rw [if_pos hold]
    obtain ⟨e, he⟩ := Option.isSome_iff_exists.mp (isSome_find.mpr hold)
    have hother := (h.clientRole.name_mem_iff (clientRoles_get hc) (roleClients_get hr)).mp hold
    obtain ⟨e', he'⟩ := Option.isSome_iff_exists.mp (isSome_find.mpr hother)
    have hlive : ∀ e ∈ role.clientlist, Table.live (s.localClients.modify c fun x =>
        { x with rolelist := hashDelete role.rolename client.rolelist }) e.addr = true :=
      fun e he => (Table.live_modify _ _ _ _).trans ((h.roleLive hr).1 e he)
    simp only [he, Option.bind_some, ne_eq, not_true_eq_false, if_false, Store.setClient]
    rw [hashFind_live hlive, he']
    have hcurrent : s.localRoles.modify r (fun x =>
          { x with clientlist := hashDelete client.username x.clientlist }) =
        s.localRoles.modify r fun x =>
          { x with clientlist := hashDelete client.username role.clientlist } :=
      Table.modify_congr hr rfl
    simp only [Option.bind_some, Store.setRole, hcurrent]
    rfl
  · rw [if_neg hold]
    have hsame : s.setClient c (fun x => { x with rolelist := client.rolelist }) = s := by
      unfold Store.setClient
      rw [Table.modify_eq_self hc rfl]
    simp only [find_eq_none.mpr hold, Option.bind_some, hsame]
    rfl

theorem rolelistGroupAdd_new (h : s.Linked) (hg : s.localGroups.get g = some group)
    (hr : s.localRoles.get r = some role) (hnew : role.rolename ∉ group.rolelist.map (·.name))
    (prio : Int32) : rolelistGroupAdd g group (some (r, role)) prio s =
      some (Rc.success, linkGroupRole g r group role prio s) := by
  have hother : group.groupname ∉ role.grouplist.map (·.name) :=
    mt (h.groupRole.name_mem_iff (groupRoles_get hg) (roleGroups_get hr)).mpr hnew
  have hlive : ∀ e ∈ role.grouplist, Table.live (s.localGroups.modify g fun x =>
      { x with rolelist := hashAddInorder rolelistCmp ⟨role.rolename, r, prio⟩ group.rolelist })
      e.addr = true := fun e he => (Table.live_modify _ _ _ _).trans ((h.roleLive hr).2 e he)
  unfold rolelistGroupAdd
  rw [rolelistAdd_new (h.groupLive hg).1 hnew]
  simp only [Option.bind_eq_bind, Option.bind_some, ne_eq, not_true_eq_false, if_false]
  rw [grouplistAdd]
  simp only [Store.setGroup]
  rw [listAdd_live hlive hother]
  rfl

theorem rolelistGroupAdd_old (h : s.Linked) (hg : s.localGroups.get g = some group)
    (hold : role.rolename ∈ group.rolelist.map (·.name)) (prio : Int32) :
    rolelistGroupAdd g group (some (r, role)) prio s = some (alreadyExists, s) := by
  unfold rolelistGroupAdd
  rw [rolelistAdd_old (h.groupLive hg).1 hold]
  rfl

theorem rolelistGroupRemove_eq (h : s.Linked) (hg : s.localGroups.get g = some group)
    (hr : s.localRoles.get r = some role) :
    rolelistGroupRemove g r s = some (unlinkGroupRole g r group role s) := by
  have hremove : ∃ rc, rolelistRemoveRole s group.rolelist role.rolename =
      some (rc, hashDelete role.rolename group.rolelist) := by
    unfold rolelistRemoveRole
    rw [hashFind_live (h.groupLive hg).1]
    cases hf : group.rolelist.find? (·.name = role.rolename) with
    | none => exact ⟨Rc.notFound, by rw [hashDelete_of_notMem (find_eq_none.mp hf)]⟩
    | some e => exact ⟨Rc.success, rfl⟩
  have hlive : ∀ e ∈ role.grouplist, Table.live (s.localGroups.modify g fun x =>
      { x with rolelist := hashDelete role.rolename group.rolelist }) e.addr = true :=
    fun e he => (Table.live_modify _ _ _ _).trans ((h.roleLive hr).2 e he)
  obtain ⟨rc, hrc⟩ := hremove
  unfold rolelistGroupRemove
  rw [hg, hr]
  simp only [Option.bind_eq_bind, Option.bind_some, hrc]
  rw [grouplistRemove]
  simp only [Store.setGroup]
  rw [listRemove_live hlive]
  rfl

theorem groupsAddClient_new (h : s.Linked) (hc : s.localClients.get c = some client)
    (hg : s.localGroups.get g = some group)
    (hnew : client.username ∉ group.clientlist.map (·.name)) (prio : Int32) :
    groupsAddClient client.username group.groupname prio s =
      some (Rc.success, linkClientGroup c g client group prio s) := by
  have hother : group.groupname ∉ client.grouplist.map (·.name) :=
    mt (h.clientGroup.name_mem_iff (clientGroups_get hc) (groupClients_get hg)).mp hnew
  have hlive : ∀ e ∈ client.grouplist, Table.live (s.localGroups.modify g fun x =>
      { x with clientlist :=
          hashAddInorder clientlistCmp ⟨client.username, c, prio⟩ group.clientlist }) e.addr =
        true := fun e he => (Table.live_modify _ _ _ _).trans ((h.clientLive hc).2 e he)
  unfold groupsAddClient
  rw [h.clientsFind hc, h.groupsFind hg]
  simp only [hashFind_live (h.groupLive hg).2, find_eq_none.mpr hnew, Option.bind_eq_bind,
    Option.bind_some, Option.isSome_none, Bool.false_eq_true, if_false]
  rw [clientlistAdd, listAdd_live (h.groupLive hg).2 hnew, Option.bind_some, grouplistAdd]
  simp only [Store.setGroup]
  rw [listAdd_live hlive hother]
  rfl

theorem groupsAddClient_old (h : s.Linked) (hc : s.localClients.get c = some client)
    (hg : s.localGroups.get g = some group) (hold : client.username ∈ group.clientlist.map (·.name))
    (prio : Int32) :
    groupsAddClient client.username group.groupname prio s = some (alreadyExists, s) := by
  unfold groupsAddClient
  rw [h.clientsFind hc, h.groupsFind hg]
  simp only [hashFind_live (h.groupLive hg).2, Option.bind_eq_bind, Option.bind_some,
    isSome_find.mpr hold, if_true]
  rfl

theorem groupsAddClient_cases (h : s.Linked) (username groupname : Bytes) (prio : Int32) :
    (∃ c client g group, s.localClients.get c = some client ∧ s.localGroups.get g = some group ∧
        client.username = username ∧ group.groupname = groupname ∧
        client.username ∉ group.clientlist.map (·.name) ∧
        groupsAddClient username groupname prio s =
          some (Rc.success, linkClientGroup c g client group prio s)) ∨
      ∃ rc, rc ≠ Rc.success ∧ groupsAddClient username groupname prio s = some (rc, s) := by
  cases hfc : s.clientsFind username with
  | none =>
    refine .inr ⟨errUserNotFound, by decide, ?_⟩
    unfold groupsAddClient
    rw [hfc]
  | some found =>
    obtain ⟨c, client⟩ := found
    obtain ⟨hc, rfl⟩ := clientsFind_some hfc
    cases hfg : s.groupsFind groupname with
    | none =>
      refine .inr ⟨errGroupNotFound, by decide, ?_⟩
      unfold groupsAddClient
      rw [hfc, hfg]
    | some found =>
      obtain ⟨g, group⟩ := found
      obtain ⟨hg, rfl⟩ := groupsFind_some hfg
      by_cases hold : client.username ∈ group.clientlist.map (·.name)
      · exact .inr ⟨alreadyExists, by decide, groupsAddClient_old h hc hg hold prio⟩
      · exact .inl ⟨c, client, g, group, hc, hg, rfl, rfl, hold,
          groupsAddClient_new h hc hg hold prio⟩

theorem groupsRemoveClient_eq (h : s.Linked) (hc : s.localClients.get c = some client)
    (hg : s.localGroups.get g = some group) :
    groupsRemoveClient client.username group.groupname s =
      some (Rc.success, unlinkClientGroup c g client group s) := by
  have hlive : ∀ e ∈ client.grouplist, Table.live (s.localGroups.modify g fun x =>
      { x with clientlist := hashDelete client.username group.clientlist }) e.addr = true :=
    fun e he => (Table.live_modify _ _ _ _).trans ((h.clientLive hc).2 e he)
  unfold groupsRemoveClient
  rw [h.clientsFind hc, h.groupsFind hg]
  simp only [Option.bind_eq_bind]
  rw [clientlistRemove, listRemove_live (h.groupLive hg).2, Option.bind_some, grouplistRemove]
  simp only [Store.setGroup]
  rw [listRemove_live hlive]
  rfl

/-! ## Loops over a list that the turns take apart -/

theorem removeClientFromAllGroups_edits (h : s.Linked) (hc : s.localClients.get c = some client)
    (hK : K (some client.username)) : ∃ s', removeClientFromAllGroups client.username s = some s' ∧
      Edits K P s s' ∧ s'.localClients.get c = some { client with grouplist := [] } ∧
      s'.localRoles = s.localRoles := by
  unfold removeClientFromAllGroups
  rw [h.clientsFind hc]
  obtain ⟨s', hs', hI⟩ := Loop.foldlM_turns (l := client.grouplist) (s := s)
    (I := fun l x => x.Linked ∧ Edits K P s x ∧
      x.localClients.get c = some { client with grouplist := l } ∧ x.localRoles = s.localRoles)
    (f := fun s e => do
      let group ← s.localGroups.get e.addr
      (groupsRemoveClient client.username group.groupname s).map Prod.snd)
    (fun e l x hI => by
      obtain ⟨hx, hedits, hcx, hroles⟩ := hI
      obtain ⟨group, hg, hname⟩ := hx.groupOfClient hcx List.mem_cons_self
      have hedit : Edit K P x (unlinkClientGroup c e.addr { client with grouplist := e :: l } group
        x) := .unlinkClientGroup hcx hg hK
      refine ⟨_, ?_, linked_edit hx hedit, hedits.tail hedit, ?_, hroles⟩
      · rw [hg]
        simp only [Option.bind_eq_bind, Option.bind_some]
        rw [groupsRemoveClient_eq hx hcx hg]
        rfl
      · refine (Table.get_modify_self hcx).trans ?_
        rw [hname, hashDelete_head])
    ⟨h, .refl, hc, rfl⟩
  exact ⟨s', hs', hI.2⟩

theorem clientRemoveAllRoles_edits (h : s.Linked) (hc : s.localClients.get c = some client)
    (hK : K (some client.username)) : ∃ s', clientRemoveAllRoles c s = some s' ∧ Edits K P s s' ∧
      s'.localClients.get c = some { client with rolelist := [] } ∧
      ∀ a, s'.localRoles.live a = s.localRoles.live a := by
  unfold clientRemoveAllRoles
  rw [hc]
  obtain ⟨s', hs', hI⟩ := Loop.foldlM_turns (l := client.rolelist) (s := s)
    (I := fun l x => x.Linked ∧ Edits K P s x ∧
      x.localClients.get c = some { client with rolelist := l } ∧
      ∀ a, x.localRoles.live a = s.localRoles.live a)
    (f := fun s e => (rolelistClientRemove c e.addr s).map Prod.snd)
    (fun e l x hI => by
      obtain ⟨hx, hedits, hcx, hroles⟩ := hI
      obtain ⟨role, hr, hname⟩ := hx.roleOfClient hcx List.mem_cons_self
      have hedit : Edit K P x (unlinkClientRole c e.addr { client with rolelist := e :: l } role
        x) := .unlinkClientRole hcx hr hK
      refine ⟨_, ?_, linked_edit hx hedit, hedits.tail hedit, ?_, fun a => ?_⟩
      · rw [rolelistClientRemove_eq hx hcx hr, if_pos (by simp [hname])]
        rfl
      · refine (Table.get_modify_self hcx).trans ?_
        rw [hname, hashDelete_head]
      · exact (Table.live_modify _ _ _ _).trans (hroles a))
    ⟨h, .refl, hc, fun _ => rfl⟩
  exact ⟨s', hs', hI.2⟩

theorem removeAllRolesFromGroup_edits (h : s.Linked) (hg : s.localGroups.get g = some group)
    (hK : ∀ u, s.InGroup u g → K u) : ∃ s', removeAllRolesFromGroup g s = some s' ∧
      Edits K P s s' ∧ s'.localGroups.get g = some { group with rolelist := [] } ∧
      s'.dynsecAnonymousGroup = s.dynsecAnonymousGroup := by
  have hsame : ∀ {x : Store} {l}, x.localGroups.get g = some { group with rolelist := l } →
      x.dynsecAnonymousGroup = s.dynsecAnonymousGroup → ∀ u, x.InGroup u g → K u := by
    intro x l hgx hanon u hu
    refine hK u ?_
    rcases hu with ⟨group', hg', hmem⟩ | ⟨hu, hanon'⟩
    · rw [hgx] at hg'
      cases hg'
      exact .inl ⟨group, hg, hmem⟩
    · exact .inr ⟨hu, hanon ▸ hanon'⟩
  unfold removeAllRolesFromGroup
  rw [hg]
  obtain ⟨s', hs', hI⟩ := Loop.foldlM_turns (l := group.rolelist) (s := s)
    (I := fun l x => x.Linked ∧ Edits K P s x ∧
      x.localGroups.get g = some { group with rolelist := l } ∧
      x.dynsecAnonymousGroup = s.dynsecAnonymousGroup)
    (f := fun s e => rolelistGroupRemove g e.addr s)
    (fun e l x hI => by
      obtain ⟨hx, hedits, hgx, hanon⟩ := hI
      obtain ⟨role, hr, hname⟩ := hx.roleOfGroup hgx List.mem_cons_self
      have hedit : Edit K P x (unlinkGroupRole g e.addr { group with rolelist := e :: l } role
        x) := .unlinkGroupRole hgx hr (hsame hgx hanon)
      refine ⟨_, rolelistGroupRemove_eq hx hgx hr, linked_edit hx hedit, hedits.tail hedit, ?_,
        hanon⟩
      refine (Table.get_modify_self hgx).trans ?_
      rw [hname, hashDelete_head])
    ⟨h, .refl, hg, rfl⟩
  exact ⟨s', hs', hI.2⟩

theorem removeAllClientsFromGroup_edits (h : s.Linked) (hg : s.localGroups.get g = some group)
    (hK : ∀ e ∈ group.clientlist, K (some e.name)) : ∃ s', removeAllClientsFromGroup g s = some s' ∧
      Edits K P s s' ∧ s'.localGroups.get g = some { group with clientlist := [] } ∧
      s'.dynsecAnonymousGroup = s.dynsecAnonymousGroup := by
  unfold removeAllClientsFromGroup
  rw [hg]
  obtain ⟨s', hs', hI⟩ := Loop.foldlM_turns (l := group.clientlist) (s := s)
    (I := fun l x => x.Linked ∧ Edits K P s x ∧
      x.localGroups.get g = some { group with clientlist := l } ∧
      x.dynsecAnonymousGroup = s.dynsecAnonymousGroup ∧ ∀ e ∈ l, e ∈ group.clientlist)
    (f := fun s e => do
      let client ← s.localClients.get e.addr
      let grouplist ← grouplistRemove s client.grouplist group.groupname
      let s := s.setClient e.addr fun client => { client with grouplist }
      return s.setGroup g fun group =>
        { group with clientlist := hashDelete e.name group.clientlist })
    (fun e l x hI => by
      obtain ⟨hx, hedits, hgx, hanon, hsub⟩ := hI
      obtain ⟨client, hc, hname⟩ := hx.clientOfGroup hgx List.mem_cons_self
      have hedit : Edit K P x (unlinkClientGroup e.addr g client { group with clientlist := e :: l }
        x) := .unlinkClientGroup hc hgx (hname ▸ hK e (hsub e List.mem_cons_self))
      refine ⟨_, ?_, linked_edit hx hedit, hedits.tail hedit, ?_, hanon,
        fun d hd => hsub d (List.mem_cons_of_mem e hd)⟩
      · have hcurrent : x.localGroups.modify g (fun y =>
              { y with clientlist := hashDelete e.name y.clientlist }) =
            x.localGroups.modify g fun y =>
              { y with clientlist := hashDelete client.username (e :: l) } :=
          Table.modify_congr hgx (by rw [hname])
        rw [hc]
        simp only [Option.bind_eq_bind, Option.bind_some, grouplistRemove]
        rw [listRemove_live (hx.clientLive hc).2]
        simp only [Option.bind_some, Store.setGroup, Store.setClient, hcurrent]
        rfl
      · refine (Table.get_modify_self hgx).trans ?_
        rw [hname, hashDelete_head])
    ⟨h, .refl, hg, rfl, fun e he => he⟩
  exact ⟨s', hs', hI.2.1, hI.2.2.1, hI.2.2.2.1⟩

/-! ## Loops over a list of the command -/

theorem loadRoles_live [JsonLibrary] (jRoles : List Json)
    (hP : ∀ jRole ∈ jRoles, P.prio (jRole.getInt "priority" (-1)))
    (hbase : ∀ e ∈ base, s.localRoles.live e.addr = true ∧ P.prio (priority e)) :
    ∃ rc rolelist, loadRoles s jRoles base = some (rc, rolelist) ∧
      ∀ e ∈ rolelist, s.localRoles.live e.addr = true ∧ P.prio (priority e) := by
  induction jRoles generalizing base with
  | nil => exact ⟨_, _, rfl, hbase⟩
  | cons jRole jRoles ih =>
    obtain ⟨hprio, hrest⟩ := List.forall_mem_cons.mp hP
    unfold loadRoles
    cases jRole.getObjectItem "rolename" with
    | none => exact ⟨_, _, rfl, hbase⟩
    | some item =>
      cases item with
      | string rolename =>
        simp only
        cases hf : s.rolesFind rolename with
        | none => exact ⟨_, _, rfl, List.forall_mem_nil _⟩
        | some found =>
          obtain ⟨r, role⟩ := found
          obtain ⟨hr, -⟩ := rolesFind_some hf
          have hlive : ∀ e ∈ base, s.localRoles.live e.addr = true := fun e he => (hbase e he).1
          by_cases hold : role.rolename ∈ base.map (·.name)
          · simp only [rolelistAdd_old hlive hold]
            exact ih hrest hbase
          · simp only [rolelistAdd_new hlive hold]
            refine ih hrest fun e he => ?_
            rcases mem_hashAdd.mp he with rfl | he
            · exact ⟨Table.live_iff.mpr ⟨role, hr⟩, hprio⟩
            · exact hbase e he
      | _ => exact ⟨_, _, rfl, hbase⟩

theorem rolelistLoadFromJson_live [JsonLibrary] (command : Json)
    (hP : ∀ jRole ∈ command.arrayField "roles", P.prio (jRole.getInt "priority" (-1))) :
    ∃ rc rolelist, rolelistLoadFromJson s command = some (rc, rolelist) ∧
      ∀ e ∈ rolelist, s.localRoles.live e.addr = true ∧ P.prio (priority e) := by
  unfold rolelistLoadFromJson
  unfold Json.arrayField at hP
  revert hP
  cases command.getObjectItem "roles" with
  | none => exact fun _ => ⟨_, _, rfl, List.forall_mem_nil _⟩
  | some item =>
    cases item with
    | array jRoles => exact fun hP => loadRoles_live jRoles hP (List.forall_mem_nil _)
    | _ => exact fun _ => ⟨_, _, rfl, List.forall_mem_nil _⟩

theorem clientAddNewRoles_edits (h : s.Linked) (hc : s.localClients.get c = some client)
    (hK : K (some client.username)) {rolelist : List Ref}
    (hroles : ∀ e ∈ rolelist, s.localRoles.live e.addr = true ∧ P.prio (priority e)) :
    ∃ s', clientAddNewRoles c rolelist s = some s' ∧ Edits K P s s' ∧
      ∃ client', s'.localClients.get c = some client' ∧ client'.username = client.username := by
  unfold clientAddNewRoles
  obtain ⟨s', hs', hJ⟩ := Loop.foldlM_keeps (l := rolelist) (s := s)
    (J := fun x => x.Linked ∧ Edits K P s x ∧
      (∃ client', x.localClients.get c = some client' ∧ client'.username = client.username) ∧
      ∀ a, x.localRoles.live a = s.localRoles.live a)
    (f := fun s e => do
      let client ← s.localClients.get c
      let role ← s.localRoles.get e.addr
      (rolelistClientAdd c client (some (e.addr, role)) (priority e) s).map Prod.snd)
    (fun e he x hJ => by
      obtain ⟨hx, hedits, ⟨client', hcx, hname⟩, hlive⟩ := hJ
      obtain ⟨role, hr⟩ := Table.live_iff.mp ((hlive e.addr).trans (hroles e he).1)
      simp only [Option.bind_eq_bind]
      rw [hcx, hr]
      by_cases hold : role.rolename ∈ client'.rolelist.map (·.name)
      · refine ⟨x, ?_, hx, hedits, ⟨client', hcx, hname⟩, hlive⟩
        simp only [Option.bind_some]
        rw [rolelistClientAdd_old hx hcx hold]
        rfl
      · have hedit : Edit K P x (linkClientRole c e.addr client' role (priority e) x) :=
          .linkClientRole hcx hr hold (hroles e he).2 (hname ▸ hK)
        refine ⟨_, ?_, linked_edit hx hedit, hedits.tail hedit,
          ⟨_, Table.get_modify_self hcx, hname⟩, fun a => (Table.live_modify _ _ _ _).trans (hlive a)⟩
        simp only [Option.bind_some]
        rw [rolelistClientAdd_new hx hcx hr hold]
        rfl)
    ⟨h, .refl, ⟨client, hc, rfl⟩, fun _ => rfl⟩
  exact ⟨s', hs', hJ.2.1, hJ.2.2.1⟩

theorem clientAddGroups_edits (h : s.Linked) (hK : K (some username))
    {groups : List (Bytes × Int32)} (hP : ∀ m ∈ groups, P.prio m.2) :
    ∃ s', clientAddGroups username groups s = some s' ∧ Edits K P s s' := by
  unfold clientAddGroups
  obtain ⟨s', hs', hJ⟩ := Loop.foldlM_keeps (l := groups) (s := s)
    (J := fun x => x.Linked ∧ Edits K P s x)
    (f := fun s m => (groupsAddClient username m.1 m.2 s).map Prod.snd)
    (fun m hm x hJ => by
      obtain ⟨hx, hedits⟩ := hJ
      rcases groupsAddClient_cases hx username m.1 m.2 with
        ⟨c, client, g, group, hc, hg, hname, -, hnew, heq⟩ | ⟨rc, -, heq⟩
      · have hedit : Edit K P x (linkClientGroup c g client group m.2 x) :=
          .linkClientGroup hc hg hnew (hP m hm) (hname ▸ hK)
        refine ⟨_, ?_, linked_edit hx hedit, hedits.tail hedit⟩
        rw [heq]
        rfl
      · refine ⟨x, ?_, hx, hedits⟩
        rw [heq]
        rfl)
    ⟨h, .refl⟩
  exact ⟨s', hs', hJ.2⟩

theorem Edits.mono {K' : Option Bytes → Prop} (hK : ∀ u, K u → K' u) (h : Edits K P s s') :
    Edits K' P s s' := by
  refine Relation.ReflTransGen.mono (fun x y hxy => ?_) _ _ h
  cases hxy with
  | client hc hname hroles hgroups hkind hk =>
    exact .client hc hname hroles hgroups hkind fun hne => hK _ (hk hne)
  | group hg hname hroles hclients => exact .group hg hname hroles hclients
  | role hr hname hclients hgroups hkind hk =>
    exact .role hr hname hclients hgroups hkind fun hne u hu => hK u (hk hne u hu)
  | anonymous hg hk => exact .anonymous hg (hK _ hk)
  | defaults hk => exact .defaults fun u => hK u (hk u)
  | linkClientRole hc hr hnew hp hk => exact .linkClientRole hc hr hnew hp (hK _ hk)
  | unlinkClientRole hc hr hk => exact .unlinkClientRole hc hr (hK _ hk)
  | linkGroupRole hg hr hnew hp hk => exact .linkGroupRole hg hr hnew hp fun u hu => hK u (hk u hu)
  | unlinkGroupRole hg hr hk => exact .unlinkGroupRole hg hr fun u hu => hK u (hk u hu)
  | linkClientGroup hc hg hnew hp hk => exact .linkClientGroup hc hg hnew hp (hK _ hk)
  | unlinkClientGroup hc hg hk => exact .unlinkClientGroup hc hg (hK _ hk)
  | addClient hkind hroles hgroups hnew hk => exact .addClient hkind hroles hgroups hnew (hK _ hk)
  | addGroup hroles hclients hnew => exact .addGroup hroles hclients hnew
  | addRole hkind hclients hgroups hnew => exact .addRole hkind hclients hgroups hnew
  | freeClient hc hroles hgroups hk => exact .freeClient hc hroles hgroups (hK _ hk)
  | freeGroup hg hroles hclients hanon => exact .freeGroup hg hroles hclients hanon
  | freeRole hr hclients hgroups => exact .freeRole hr hclients hgroups

/-- Clients are added to a group: those concerned are in it afterwards. -/
theorem groupAddClients_edits (h : s.Linked) (hg : s.localGroups.get g = some group)
    {clients : List (Bytes × Int32)} (hP : ∀ m ∈ clients, P.prio m.2) :
    ∃ s' group', groupAddClients group.groupname clients s = some s' ∧ s'.Linked ∧
      s'.localGroups.get g = some group' ∧
      Edits (fun u => ∃ e ∈ group'.clientlist, u = some e.name) P s s' := by
  unfold groupAddClients
  obtain ⟨s', hs', hx, group', hg', -, hedits⟩ := Loop.foldlM_keeps (l := clients) (s := s)
    (J := fun x => x.Linked ∧ ∃ group', x.localGroups.get g = some group' ∧
      group'.groupname = group.groupname ∧
      Edits (fun u => ∃ e ∈ group'.clientlist, u = some e.name) P s x)
    (f := fun s m => (groupsAddClient m.1 group.groupname m.2 s).map Prod.snd)
    (fun m hm x hJ => by
      obtain ⟨hx, group', hgx, hname, hedits⟩ := hJ
      rcases groupsAddClient_cases hx m.1 group.groupname m.2 with
        ⟨c, client, g', group'', hc, hg', -, hname', hnew, heq⟩ | ⟨rc, -, heq⟩
      · have hfound := (hx.groupsFind hgx).symm.trans
          ((hname.trans hname'.symm) ▸ hx.groupsFind hg')
        cases hfound
        let list := hashAddInorder clientlistCmp ⟨client.username, c, m.2⟩ group'.clientlist
        have hmore : ∀ u, (∃ e ∈ group'.clientlist, u = some e.name) →
            ∃ e ∈ list, u = some e.name := by
          rintro u ⟨e, he, hu⟩
          exact ⟨e, mem_hashAdd.mpr (.inr he), hu⟩
        have hedit : Edit (fun u => ∃ e ∈ list, u = some e.name) P x
            (linkClientGroup c g client group' m.2 x) :=
          .linkClientGroup hc hgx hnew (hP m hm) ⟨_, mem_hashAdd.mpr (.inl rfl), rfl⟩
        refine ⟨_, ?_, linked_edit hx hedit, _, Table.get_modify_self hgx, hname,
          (Edits.mono hmore hedits).tail hedit⟩
        rw [heq]
        rfl
      · refine ⟨x, ?_, hx, group', hgx, hname, hedits⟩
        rw [heq]
        rfl)
    ⟨h, group, hg, rfl, .refl⟩
  exact ⟨s', group', hs', hx, hg', hedits⟩

/-- A new client's groups, all of them there and none of them twice. -/
theorem createClientGroups_edits (groups : List (Bytes × Int32)) (h : s.Linked)
    (hc : s.localClients.get c = some client) (hK : K (some client.username))
    (hthere : ∀ m ∈ groups, ∃ g l, s.groupClients g = some (m.1, l))
    (hnew : ∀ m ∈ groups, m.1 ∉ client.grouplist.map (·.name))
    (hnodup : (groups.map Prod.fst).Nodup) (hP : ∀ m ∈ groups, P.prio m.2) :
    ∃ s', createClientGroups client.username groups s = some (none, s') ∧ Edits K P s s' := by
  induction groups generalizing s client with
  | nil => exact ⟨s, rfl, .refl⟩
  | cons m groups ih =>
    obtain ⟨⟨g, l, hview⟩, hthere'⟩ := List.forall_mem_cons.mp hthere
    obtain ⟨hm, hnew'⟩ := List.forall_mem_cons.mp hnew
    obtain ⟨hnot, hrest⟩ := List.nodup_cons.mp hnodup
    obtain ⟨hprio, hprios⟩ := List.forall_mem_cons.mp hP
    obtain ⟨groupname, prio⟩ := m
    obtain ⟨group, hg, rfl, rfl⟩ := get_of_side hview
    have hother : client.username ∉ group.clientlist.map (·.name) :=
      mt (h.clientGroup.name_mem_iff (clientGroups_get hc) (groupClients_get hg)).mpr hm
    have hedit : Edit K P s (linkClientGroup c g client group prio s) :=
      .linkClientGroup hc hg hother hprio hK
    have hthere'' : ∀ m ∈ groups, ∃ g' l',
        (linkClientGroup c g client group prio s).groupClients g' = some (m.1, l') := by
      intro m hm
      obtain ⟨g', l', hview'⟩ := hthere' m hm
      by_cases hgg : g' = g
      · subst hgg
        have hname := congrArg Prod.fst (Option.some.inj ((groupClients_get hg).symm.trans hview'))
        have hget : (linkClientGroup c g' client group prio s).localGroups.get g' = some { group with
            clientlist :=
              hashAddInorder clientlistCmp ⟨client.username, c, prio⟩ group.clientlist } :=
          Table.get_modify_self hg
        have hview := groupClients_get hget
        rw [← hname]
        exact ⟨g', _, hview⟩
      · refine ⟨g', l', ?_⟩
        rw [← hview']
        exact (view_modify _ _ hg g').trans (if_neg hgg)
    have hnew'' : ∀ m ∈ groups, m.1 ∉ (hashAddInorder grouplistCmp ⟨group.groupname, g, prio⟩
        client.grouplist).map (·.name) := by
      intro m hm hmem
      obtain ⟨e, he, hname⟩ := List.mem_map.mp hmem
      rcases mem_hashAdd.mp he with rfl | he
      · exact hnot (List.mem_map.mpr ⟨m, hm, hname.symm⟩)
      · exact hnew' m hm (List.mem_map.mpr ⟨e, he, hname⟩)
    obtain ⟨s', hs', hedits⟩ := ih (linked_edit h hedit) (Table.get_modify_self hc) hK hthere''
      hnew'' hrest hprios
    refine ⟨s', ?_, .head hedit hedits⟩
    rw [createClientGroups, groupsAddClient_new h hc hg hother]
    exact hs'

/-! ## Kicks -/

theorem inGroup_iff {u : Option Bytes} : s.InGroup u g ↔
    (∃ n l, s.groupClients g = some (n, l) ∧ ∃ e ∈ l, u = some e.name) ∨
      u = none ∧ s.dynsecAnonymousGroup = some g := by
  refine or_congr ⟨?_, ?_⟩ Iff.rfl
  · rintro ⟨group, hg, hmem⟩
    exact ⟨_, _, groupClients_get hg, hmem⟩
  · rintro ⟨n, l, hview, hmem⟩
    obtain ⟨group, hg, rfl, rfl⟩ := get_of_side hview
    exact ⟨group, hg, hmem⟩

theorem inGroup_congr {u : Option Bytes} (hview : ∀ g, s'.groupClients g = s.groupClients g)
    (hanon : s'.dynsecAnonymousGroup = s.dynsecAnonymousGroup) :
    s'.InGroup u g ↔ s.InGroup u g := by
  rw [inGroup_iff, inGroup_iff, hview, hanon]

theorem clientlistKickAll_eq (h : ∀ e ∈ base, ∃ client, s.localClients.get e.addr = some client ∧
    client.username = e.name) :
    clientlistKickAll s base = some (base.map fun e => some e.name) := by
  refine Loop.mapM_eq fun e he => ?_
  obtain ⟨client, hc, hname⟩ := h e he
  rw [hc, ← hname]
  rfl

theorem groupKickAll_some (h : s.Linked) (hg : s.localGroups.get g = some group) :
    ∃ kicks, groupKickAll s g = some kicks ∧ ∀ u, u ∈ kicks ↔ s.InGroup u g := by
  refine ⟨(if s.dynsecAnonymousGroup = some g then [none] else []) ++
    group.clientlist.map fun e => some e.name, ?_, fun u => ?_⟩
  · unfold groupKickAll
    rw [hg]
    simp only [Option.bind_eq_bind, Option.bind_some]
    rw [clientlistKickAll_eq fun e he => h.clientOfGroup hg he]
    rfl
  · have hanon : u ∈ (if s.dynsecAnonymousGroup = some g then [none] else []) ↔
        u = none ∧ s.dynsecAnonymousGroup = some g := by
      split <;> simp_all
    rw [inGroup_iff, groupClients_get hg, List.mem_append, hanon, List.mem_map, or_comm]
    refine or_congr ⟨?_, ?_⟩ Iff.rfl
    · rintro ⟨e, he, rfl⟩
      exact ⟨_, _, rfl, e, he, rfl⟩
    · rintro ⟨n, l, heq, e, he, rfl⟩
      cases heq
      exact ⟨e, he, rfl⟩

theorem roleKickAll_some (h : s.Linked) (hr : s.localRoles.get r = some role) :
    ∃ kicks, roleKickAll s role = some kicks ∧ ∀ u, u ∈ kicks ↔ s.Holds u r := by
  have hgroups : ∀ e ∈ role.grouplist, ∃ kicks, groupKickAll s e.addr = some kicks ∧
      ∀ u, u ∈ kicks ↔ s.InGroup u e.addr := by
    intro e he
    obtain ⟨group, hg, -⟩ := h.groupOfRole hr he
    exact groupKickAll_some h hg
  have hread : role.grouplist.mapM (fun e => groupKickAll s e.addr) =
      some (role.grouplist.map fun e => (groupKickAll s e.addr).getD []) := by
    refine Loop.mapM_eq fun e he => ?_
    obtain ⟨kicks, hkicks, -⟩ := hgroups e he
    rw [hkicks, Option.getD_some]
  refine ⟨(role.clientlist.map fun e => some e.name) ++
    (role.grouplist.map fun e => (groupKickAll s e.addr).getD []).flatten, ?_, fun u => ?_⟩
  · unfold roleKickAll
    rw [clientlistKickAll_eq fun e he => h.clientOfRole hr he, hread]
    rfl
  · have hmem : (∃ e ∈ role.grouplist, u ∈ (groupKickAll s e.addr).getD []) ↔
        ∃ e ∈ role.grouplist, s.InGroup u e.addr := by
      refine exists_congr fun e => and_congr_right fun he => ?_
      obtain ⟨kicks, hkicks, hiff⟩ := hgroups e he
      rw [hkicks, Option.getD_some, hiff]
    rw [List.mem_append, List.mem_map, List.mem_flatten]
    constructor
    · rintro (⟨e, he, rfl⟩ | ⟨kicks, hkicks, hu⟩)
      · exact ⟨role, hr, .inl ⟨e, he, rfl⟩⟩
      · obtain ⟨e, he, rfl⟩ := List.mem_map.mp hkicks
        exact ⟨role, hr, .inr (hmem.mp ⟨e, he, hu⟩)⟩
    · rintro ⟨role', hr', hhold⟩
      rw [hr] at hr'
      cases hr'
      rcases hhold with ⟨e, he, rfl⟩ | hgroup
      · exact .inl ⟨e, he, rfl⟩
      · obtain ⟨e, he, hu⟩ := hmem.mpr hgroup
        exact .inr ⟨_, List.mem_map_of_mem he, hu⟩

theorem roleRemoveAllClients_edits (h : s.Linked) (hr : s.localRoles.get r = some role)
    (hK : ∀ e ∈ role.clientlist, K (some e.name)) :
    ∃ s', roleRemoveAllClients r s = some (role.clientlist.map (fun e => some e.name), s') ∧
      Edits K P s s' ∧ s'.localRoles.get r = some { role with clientlist := [] } ∧
      s'.localGroups = s.localGroups ∧ s'.dynsecAnonymousGroup = s.dynsecAnonymousGroup := by
  unfold roleRemoveAllClients
  rw [hr]
  obtain ⟨⟨kicks, s'⟩, hs', hI⟩ := Loop.foldlM_turns (l := role.clientlist)
    (s := (([] : List (Option Bytes)), s))
    (I := fun l x => x.1 ++ l.map (fun e => some e.name) =
        role.clientlist.map (fun e => some e.name) ∧ x.2.Linked ∧ Edits K P s x.2 ∧
      x.2.localRoles.get r = some { role with clientlist := l } ∧
      x.2.localGroups = s.localGroups ∧ x.2.dynsecAnonymousGroup = s.dynsecAnonymousGroup ∧
      ∀ e ∈ l, e ∈ role.clientlist)
    (f := fun x e => do
      let client ← x.2.localClients.get e.addr
      let removed ← rolelistClientRemove e.addr r x.2
      return (x.1 ++ [some client.username], removed.2))
    (fun e l x hI => by
      obtain ⟨hkicks, hx, hedits, hrx, hgroups, hanon, hsub⟩ := hI
      obtain ⟨client, hc, hname⟩ := hx.clientOfRole hrx List.mem_cons_self
      have hold : role.rolename ∈ client.rolelist.map (·.name) :=
        (hx.clientRole.name_mem_iff (clientRoles_get hc) (roleClients_get hrx)).mpr (by simp [hname])
      have hedit : Edit K P x.2 (unlinkClientRole e.addr r client { role with clientlist := e :: l }
        x.2) := .unlinkClientRole hc hrx (hname ▸ hK e (hsub e List.mem_cons_self))
      refine ⟨(x.1 ++ [some client.username], _), ?_, ?_, linked_edit hx hedit, hedits.tail hedit,
        ?_, hgroups, hanon, fun d hd => hsub d (List.mem_cons_of_mem e hd)⟩
      · simp only [Option.bind_eq_bind]
        rw [hc, Option.bind_some, rolelistClientRemove_eq hx hc hrx, if_pos hold]
        rfl
      · rw [← hkicks, hname, List.append_assoc]
        rfl
      · refine (Table.get_modify_self hrx).trans ?_
        rw [hname, hashDelete_head])
    ⟨rfl, h, .refl, hr, rfl, rfl, fun e he => he⟩
  obtain ⟨hkicks, -, hedits, hr', hgroups, hanon, -⟩ := hI
  rw [List.map_nil, List.append_nil] at hkicks
  exact ⟨s', hkicks ▸ hs', hedits, hr', hgroups, hanon⟩

theorem roleRemoveAllGroups_edits (h : s.Linked) (hr : s.localRoles.get r = some role)
    (hK : ∀ u, (∃ e ∈ role.grouplist, s.InGroup u e.addr) → K u) :
    ∃ kicks s', roleRemoveAllGroups r s = some (kicks, s') ∧
      (∀ u, u ∈ kicks ↔ ∃ e ∈ role.grouplist, s.InGroup u e.addr) ∧
      Edits K P s s' ∧ s'.localRoles.get r = some { role with grouplist := [] } := by
  unfold roleRemoveAllGroups
  rw [hr]
  obtain ⟨⟨kicks, s'⟩, hs', hI⟩ := Loop.foldlM_turns (l := role.grouplist)
    (s := (([] : List (Option Bytes)), s))
    (I := fun l x => (∀ u, (u ∈ x.1 ∨ ∃ e ∈ l, s.InGroup u e.addr) ↔
        ∃ e ∈ role.grouplist, s.InGroup u e.addr) ∧ x.2.Linked ∧ Edits K P s x.2 ∧
      x.2.localRoles.get r = some { role with grouplist := l } ∧
      (∀ u g, x.2.InGroup u g ↔ s.InGroup u g) ∧ ∀ e ∈ l, e ∈ role.grouplist)
    (f := fun x e => do
      let more ← groupKickAll x.2 e.addr
      let s ← rolelistGroupRemove e.addr r x.2
      return (x.1 ++ more, s))
    (fun e l x hI => by
      obtain ⟨hkicks, hx, hedits, hrx, hsame, hsub⟩ := hI
      obtain ⟨group, hg, hname⟩ := hx.groupOfRole hrx List.mem_cons_self
      obtain ⟨more, hmore, hiff⟩ := groupKickAll_some hx hg
      have hedit : Edit K P x.2 (unlinkGroupRole e.addr r group { role with grouplist := e :: l }
        x.2) := .unlinkGroupRole hg hrx fun u hu =>
          hK u ⟨e, hsub e List.mem_cons_self, (hsame u _).mp hu⟩
      refine ⟨(x.1 ++ more, _), ?_, fun u => ?_, linked_edit hx hedit, hedits.tail hedit, ?_,
        fun u g => ?_, fun d hd => hsub d (List.mem_cons_of_mem e hd)⟩
      · simp only [Option.bind_eq_bind]
        rw [hmore, Option.bind_some, rolelistGroupRemove_eq hx hg hrx]
        rfl
      · rw [← hkicks u, List.mem_append, hiff, hsame, or_assoc]
        simp only [List.mem_cons, exists_eq_or_imp]
      · refine (Table.get_modify_self hrx).trans ?_
        rw [hname, hashDelete_head]
      · rw [← hsame]
        exact inGroup_congr (view_modify_keep hg rfl) rfl)
    ⟨fun u => by simp, h, .refl, hr, fun _ _ => Iff.rfl, fun e he => he⟩
  obtain ⟨hkicks, -, hedits, hr', -, -⟩ := hI
  refine ⟨kicks, s', hs', fun u => ?_, hedits, hr'⟩
  rw [← hkicks u]
  simp

end AdaptiveMqtt.Dynsec
