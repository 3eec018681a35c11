import AdaptiveMqtt.Dynsec.Loading

/-!
# A store that was saved and loaded

A store that is loaded from the tree another one was saved as has the same clients, groups and
roles, in the same order and with the same references.
-/

namespace AdaptiveMqtt.Dynsec

open Lib Security Links Store

variable {s x : Store} {c g r : Addr} {client : Client} {group : Group} {role : Role}
  {prio : Int32} {P : Kind} {crypto : Crypto} {base : List Ref} {facts : Facts}

/-! ## The whole store -/

section Whole

variable {α : Type} {t : Table Addr α} {name : α → Bytes} {list : α → List Ref} {n m : Bytes}

/-- Distinct names in their order come one after the other. -/
theorem strictly_ordered (h : t.InOrder fun v => chars (name v))
    (hone : ∀ {a a' v v'}, t.get a = some v → t.get a' = some v' → name v = name v' → a = a') :
    (t.entries.map Prod.snd).Pairwise fun v v' => chars (name v) < chars (name v') := by
  have hkeys : t.entries.Pairwise fun e e' => e.1 ≠ e'.1 := List.pairwise_map.mp t.nodup
  refine List.pairwise_map.mpr ((h.and hkeys).imp_of_mem fun {e e'} he he' hboth => ?_)
  refine lt_of_le_of_ne hboth.1 fun heq => hboth.2 ?_
  exact hone (Table.mem_entries he) (Table.mem_entries he') (chars_inj.mp heq)

/-- The references of all objects. -/
theorem joined_entries : (∃ v ∈ t.entries.map Prod.snd, n = name v ∧ (m, prio) ∈ (list v).map named) ↔
    Joined (fun a => (t.get a).map fun v => (name v, list v)) n m prio := by
  constructor
  · rintro ⟨v, hv, rfl, hmem⟩
    obtain ⟨e, he, rfl⟩ := List.mem_map.mp hv
    obtain ⟨r, hr, heq⟩ := List.mem_map.mp hmem
    cases heq
    exact ⟨e.1, list e.2, r.addr, congrArg (Option.map _) (Table.mem_entries he), hr⟩
  · rintro ⟨a, l, b, ha, hmem⟩
    obtain ⟨v, hv, heq⟩ := Option.map_eq_some_iff.mp ha
    cases heq
    exact ⟨v, List.mem_map.mpr ⟨(a, v), Table.mem_entries_iff.mpr hv, rfl⟩, rfl,
      List.mem_map.mpr ⟨_, hmem, rfl⟩⟩

theorem loadArray_saved [JsonLibrary] {tree : Json} {field : String} {items : List Json}
    {load : Json → Store → Option Store} {finish : Store → Store} {x x' : Store}
    (hread : tree.getObjectItem field = some (.array items))
    (hload : items.foldlM (fun s json => load json s) x = some x') :
    loadArray tree field load finish x = some (some (finish x')) := by
  unfold loadArray
  rw [hread]
  simp only [hload, Option.map_some]

end Whole

section Tree

variable [JsonLibrary] [LawfulJsonLibrary]

theorem generalConfigLoad_saved (crypto : Crypto) (s x : Store) :
    generalConfigLoad (configTree crypto s) x = { x with defaultAccess := s.defaultAccess } := by
  have hread := (configTree_fields crypto s).1
  unfold generalConfigSave at hread
  unfold generalConfigLoad boolOf
  rw [hread]
  simp +decide [getObjectItem_object, lookup_cons]

end Tree

def Facts.none (access : DefaultAccess) : Facts :=
  ⟨[], [], [], fun _ _ _ => False, fun _ _ _ => False, fun _ _ _ => False, access⟩

theorem loading_init (P : Kind) (access : DefaultAccess) :
    Loading P { Store.init with defaultAccess := access } (Facts.none access) := by
  have hedit : Edit (fun _ => True) P Store.init { Store.init with defaultAccess := access } :=
    .defaults fun _ => trivial
  have hjoined : Joined (fun _ => none : Side Addr Bytes Int32) = fun _ _ _ => False := by
    funext n m v
    refine eq_false ?_
    rintro ⟨a, l, b, ha, -⟩
    cases ha
  refine ⟨linked_edit linked_init hedit, ordered_edit ordered_init hedit, ?_, rfl⟩
  unfold Store.facts Facts.none
  rw [← hjoined]
  rfl

theorem Store.Linked.fits (h : s.Linked) (hord : s.Ordered P) (hg : s.localGroups.get g = some group)
    (hroles : facts.roles = s.localRoles.entries.map fun e => e.2.own)
    (hclients : facts.clients = s.localClients.entries.map fun e => e.2.own) :
    group.Fits P facts := by
  obtain ⟨hr, hc⟩ := hord.groups hg
  refine ⟨fun e he => ⟨hr.prio e he, ?_⟩, fun e he => ⟨hc.prio e he, ?_⟩,
    h.groupRole.single (groupRoles_get hg), h.clientGroup.single' (groupClients_get hg)⟩
  · obtain ⟨role, hget, hname⟩ := h.roleOfGroup hg he
    rw [hroles]
    exact ⟨role.own, List.mem_map.mpr ⟨_, Table.mem_entries_iff.mpr hget, rfl⟩, hname⟩
  · obtain ⟨client, hget, hname⟩ := h.clientOfGroup hg he
    rw [hclients]
    exact ⟨client.own, List.mem_map.mpr ⟨_, Table.mem_entries_iff.mpr hget, rfl⟩, hname⟩

variable [JsonLibrary] [LawfulJsonLibrary]

theorem rolesConfigLoad_saved (crypto : Crypto) (h : s.Linked) (hord : s.Ordered P) (hclose : P.Close)
    (hx : Loading P x facts) (hempty : facts.roles = []) :
    ∃ x', rolesConfigLoad (configTree crypto s) x = some (some x') ∧
      Loading P x' { facts with roles := s.facts.roles } := by
  have hread := (configTree_fields crypto s).2.2.2.2
  let roles := s.localRoles.entries.map Prod.snd
  have hitems : s.localRoles.entries.map (fun e => roleToJson e.2) = roles.map roleToJson := by
    rw [List.map_map]
    rfl
  have hown : roles.map Role.own = s.facts.roles := List.map_map
  have hsorted : (facts.roles ++ roles.map Role.own).Pairwise fun a b => chars a.1 < chars b.1 := by
    rw [hempty, List.nil_append]
    refine List.pairwise_map.mpr (strictly_ordered hord.rolenames ?_)
    intro r r' role role' hr hr' (hname : role.rolename = role'.rolename)
    exact h.clientRole.named' (roleClients_get hr) (hname ▸ roleClients_get hr')
  have hkind : ∀ role ∈ roles, P.OfRole role := by
    intro role hrole
    obtain ⟨e, he, rfl⟩ := List.mem_map.mp hrole
    exact (hord.roles (Table.mem_entries he)).1
  obtain ⟨x', hx', h'⟩ := loadRoles_saved hclose roles hkind hx hsorted
  rw [hempty, List.nil_append, hown] at h'
  refine ⟨x', (loadArray_saved (hread.trans (by rw [hitems])) hx').trans ?_, h'⟩
  rw [sortByName_eq h'.ordered.rolenames]

theorem clientsConfigLoad_saved (h : s.Linked) (hord : s.Ordered P) (hcrypto : crypto.Faithful)
    (hwhole : ∀ pw, P.pw pw → pw.Whole) (hx : Loading P x facts) (hempty : facts.clients = [])
    (hnone : facts.clientRole = fun _ _ _ => False) (hroles : facts.roles = s.facts.roles) :
    ∃ x', clientsConfigLoad crypto (configTree crypto s) x = some (some x') ∧
      Loading P x' { facts with clients := s.facts.clients, clientRole := s.facts.clientRole } := by
  have hread := (configTree_fields crypto s).2.1
  let clients := s.localClients.entries.map Prod.snd
  have hitems : s.localClients.entries.map (fun e => clientTree crypto e.2) =
      clients.map (clientTree crypto) := by
    rw [List.map_map]
    rfl
  have hown : clients.map Client.own = s.facts.clients := List.map_map
  have hsorted : (facts.clients ++ clients.map Client.own).Pairwise
      fun a b => chars a.1 < chars b.1 := by
    rw [hempty, List.nil_append]
    refine List.pairwise_map.mpr (strictly_ordered hord.usernames ?_)
    intro c c' client client' hc hc' (hname : client.username = client'.username)
    exact h.clientRole.named (clientRoles_get hc) (hname ▸ clientRoles_get hc')
  have hkind : ∀ client ∈ clients, P.OfClient client ∧ client.pw.Whole ∧
      (client.rolelist.map (·.name)).Nodup ∧ ∀ e ∈ client.rolelist, P.prio (priority e) := by
    intro client hclient
    obtain ⟨e, he, rfl⟩ := List.mem_map.mp hclient
    have hc := Table.mem_entries he
    obtain ⟨hown, hrefs, -⟩ := hord.clients hc
    exact ⟨hown, hwhole _ hown.2, h.clientRole.single (clientRoles_get hc), hrefs.prio⟩
  have hthere : ∀ client ∈ clients, ∀ e ∈ client.rolelist, ∃ b ∈ facts.roles, b.1 = e.name := by
    intro client hclient e he
    obtain ⟨d, hd, rfl⟩ := List.mem_map.mp hclient
    obtain ⟨role, hr, hname⟩ := h.roleOfClient (Table.mem_entries hd) he
    rw [hroles]
    exact ⟨role.own, List.mem_map.mpr ⟨_, Table.mem_entries_iff.mpr hr, rfl⟩, hname⟩
  obtain ⟨x', hx', h'⟩ := loadClients_saved hcrypto clients hkind hx hsorted hthere
    fun n m v hv => by
      rw [hnone] at hv
      exact hv.elim
  have hjoined : (fun n m v => facts.clientRole n m v ∨ ∃ client ∈ clients,
      client.hasRole n m v) = s.facts.clientRole := by
    funext n m v
    rw [hnone, false_or]
    exact propext joined_entries
  rw [hempty, List.nil_append, hown, hjoined] at h'
  refine ⟨x', (loadArray_saved (hread.trans (by rw [hitems])) hx').trans ?_, h'⟩
  rw [sortByName_eq h'.ordered.usernames]

theorem loadAnonymousGroup_saved (crypto : Crypto) (hs : s.Linked) (hx : Loading P x facts)
    (hgroups : facts.groups = s.facts.groups) :
    let x' := loadAnonymousGroup (configTree crypto s) x
    x'.Linked ∧ x'.Ordered P ∧ x'.facts = facts ∧ x'.anonymousName = s.anonymousName := by
  have hread := (configTree_fields crypto s).2.2.2.1
  unfold loadAnonymousGroup
  rw [hread]
  cases hanon : s.dynsecAnonymousGroup with
  | none =>
    have hname : s.anonymousName = none := by
      unfold Store.anonymousName
      rw [hanon, Option.bind_none]
    rw [hname]
    refine ⟨hx.linked, hx.ordered, hx.facts, ?_⟩
    exact congrArg (Option.bind · fun g => (x.localGroups.get g).map Group.groupname) hx.anonymous
  | some g =>
    obtain ⟨group, hg⟩ := Table.live_iff.mp (hs.anonymous g hanon)
    have hname : s.anonymousName = some group.groupname := by
      unfold Store.anonymousName
      rw [hanon, Option.bind_some, hg, Option.map_some]
    have hmem : group.own ∈ x.facts.groups := by
      rw [hx.facts, hgroups]
      exact List.mem_map.mpr ⟨_, Table.mem_entries_iff.mpr hg, rfl⟩
    obtain ⟨e, he, hown⟩ := List.mem_map.mp hmem
    have hgx := Table.mem_entries he
    have hsame : e.2.groupname = group.groupname := congrArg Prod.fst hown
    have hfind : x.groupsFind group.groupname = some e := hsame ▸ hx.linked.groupsFind hgx
    have hedit : Edit (fun _ => True) P x { x with dynsecAnonymousGroup := some e.1 } :=
      .anonymous (Table.live_iff.mpr ⟨_, hgx⟩) trivial
    rw [hname]
    simp only [Option.map_some, hfind]
    refine ⟨linked_edit hx.linked hedit, ordered_edit hx.ordered hedit, hx.facts, ?_⟩
    unfold Store.anonymousName
    simp only [Option.bind_some, hgx, Option.map_some, hsame]

theorem groupsConfigLoad_saved (crypto : Crypto) (h : s.Linked) (hord : s.Ordered P) (hx : Loading P x facts)
    (hempty : facts.groups = []) (hnone : facts.groupRole = fun _ _ _ => False)
    (hnone' : facts.clientGroup = fun _ _ _ => False) (hroles : facts.roles = s.facts.roles)
    (hclients : facts.clients = s.facts.clients) :
    ∃ x', groupsConfigLoad (configTree crypto s) x = some (some x') ∧ x'.Linked ∧ x'.Ordered P ∧
      x'.facts = { facts with
        groups := s.facts.groups, groupRole := s.facts.groupRole
        clientGroup := s.facts.clientGroup } ∧ x'.anonymousName = s.anonymousName := by
  have hread := (configTree_fields crypto s).2.2.1
  let groups := s.localGroups.entries.map Prod.snd
  have hitems : s.localGroups.entries.map (fun e => groupTree e.2) = groups.map groupTree := by
    rw [List.map_map]
    rfl
  have hown : groups.map Group.own = s.facts.groups := List.map_map
  have hsorted : (facts.groups ++ groups.map Group.own).Pairwise
      fun a b => chars a.1 < chars b.1 := by
    rw [hempty, List.nil_append]
    refine List.pairwise_map.mpr (strictly_ordered hord.groupnames ?_)
    intro g g' group group' hg hg' (hname : group.groupname = group'.groupname)
    exact h.groupRole.named (groupRoles_get hg) (hname ▸ groupRoles_get hg')
  have hfits : ∀ group ∈ groups, group.Fits P facts := by
    intro group hgroup
    obtain ⟨e, he, rfl⟩ := List.mem_map.mp hgroup
    exact h.fits hord (Table.mem_entries he) hroles hclients
  have hbound : facts.Bounded := by
    refine ⟨fun n m v hv => ?_, fun n m v hv => ?_⟩
    · rw [hnone] at hv
      exact hv.elim
    · rw [hnone'] at hv
      exact hv.elim
  obtain ⟨x', hx', h'⟩ := loadGroups_saved groups hx hsorted hfits hbound
  have hjoined : (fun n m v => facts.groupRole n m v ∨ ∃ group ∈ groups,
      group.hasRole n m v) = s.facts.groupRole := by
    funext n m v
    rw [hnone, false_or]
    exact propext joined_entries
  have hjoined' : (fun n m v => facts.clientGroup n m v ∨ ∃ group ∈ groups,
      group.hasClient n m v) = s.facts.clientGroup := by
    funext n m v
    rw [hnone', false_or]
    exact propext (joined_entries.trans h.clientGroup.joined_symm.symm)
  rw [hempty, List.nil_append, hown, hjoined, hjoined'] at h'
  refine ⟨_, (loadArray_saved (hread.trans (by rw [hitems])) hx').trans ?_,
    loadAnonymousGroup_saved crypto h h' rfl⟩
  rw [sortByName_eq h'.ordered.groupnames]

/-- **A store is loaded from what it was saved as.** -/
theorem configLoadTree_saved (h : s.Linked) (hord : s.Ordered P) (hclose : P.Close)
    (hcrypto : crypto.Faithful) (hwhole : ∀ pw, P.pw pw → pw.Whole) :
    ∃ x, configLoadTree crypto (configTree crypto s) Store.init = some x ∧ x.Linked ∧ x.Ordered P ∧
      x.facts = s.facts ∧ x.anonymousName = s.anonymousName := by
  obtain ⟨x₁, hx₁, h₁⟩ := rolesConfigLoad_saved crypto h hord hclose
    (loading_init P s.defaultAccess) rfl
  obtain ⟨x₂, hx₂, h₂⟩ := clientsConfigLoad_saved h hord hcrypto hwhole h₁ rfl rfl rfl
  obtain ⟨x₃, hx₃, h₃⟩ := groupsConfigLoad_saved crypto h hord h₂ rfl rfl rfl rfl rfl
  refine ⟨x₃, ?_, h₃⟩
  unfold configLoadTree
  rw [generalConfigLoad_saved]
  simp only [Option.bind_eq_bind, hx₁, Option.bind_some, hx₂, hx₃]
  rfl

end AdaptiveMqtt.Dynsec
