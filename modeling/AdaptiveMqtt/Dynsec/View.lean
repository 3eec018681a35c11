import AdaptiveMqtt.Dynsec.Restore
import AdaptiveMqtt.Dynsec.Rights

/-!
# Stores without addresses

What a store shows when its addresses are left out. It is all that the check of a topic and a
login depend on, and a store that was saved and loaded shows what it did before.
-/

namespace AdaptiveMqtt.Dynsec

open Lib Security Links Store

variable {s x : Store} {c g r : Addr} {client : Client} {group : Group} {role : Role}
  {P : Kind} {crypto : Crypto} {base : List Ref}

/-! ## Views -/

/-- A reference without its address. -/
def Client.view (client : Client) := (client.own, client.rolelist.map named, client.grouplist.map named)

def Group.view (group : Group) := (group.own, group.rolelist.map named, group.clientlist.map named)

def Role.view (role : Role) := (role.own, role.clientlist.map named, role.grouplist.map named)

/-- Lists of references with the same elements in the same order. -/
theorem map_named_eq {τ : Type} [LinearOrder τ] (key : Bytes × Int32 → τ) {l l' : List Ref}
    (hkey : ∀ a b, key a = key b → a.1 = b.1)
    (hl : l.Pairwise fun e e' => key (named e) ≤ key (named e'))
    (hl' : l'.Pairwise fun e e' => key (named e) ≤ key (named e'))
    (hnodup : (l.map (·.name)).Nodup) (hnodup' : (l'.map (·.name)).Nodup)
    (hsame : ∀ n v, (∃ b, ⟨n, b, v⟩ ∈ l) ↔ ∃ b, ⟨n, b, v⟩ ∈ l') :
    l.map named = l'.map named := by
  have hnames : ∀ {k : List Ref}, (k.map (·.name)).Nodup → ((k.map named).map Prod.fst).Nodup := by
    intro k hk
    rw [List.map_map]
    exact hk
  have hmem : ∀ (k : List Ref) (n : Bytes) (v : Int32), (n, v) ∈ k.map named ↔ ∃ b, ⟨n, b, v⟩ ∈ k := by
    intro k n v
    rw [List.mem_map]
    constructor
    · rintro ⟨e, he, heq⟩
      cases heq
      exact ⟨e.addr, he⟩
    · rintro ⟨b, hb⟩
      exact ⟨_, hb, rfl⟩
  have hperm : (l.map named).Perm (l'.map named) := by
    refine (List.perm_ext_iff_of_nodup (List.Nodup.of_map _ (hnames hnodup))
      (List.Nodup.of_map _ (hnames hnodup'))).mpr fun m => ?_
    obtain ⟨n, v⟩ := m
    rw [hmem, hmem, hsame]
  have hsorted : (l.map named).Pairwise fun a b => key a ≤ key b := List.pairwise_map.mpr hl
  have hsorted' : (l'.map named).Pairwise fun a b => key a ≤ key b := List.pairwise_map.mpr hl'
  refine hperm.eq_of_pairwise ?_ hsorted hsorted'
  intro a b ha hb hab hba
  exact List.inj_on_of_nodup_map (hnames hnodup) ha (hperm.mem_iff.mpr hb)
    (hkey a b (le_antisymm hab hba))

/-- What two lists of references show is the same if their sides are. -/
theorem refs_eq {A B : Side Addr Bytes Int32} {a b : Addr} {n : Bytes} {l l' : List Ref}
    (hA : Named A) (hB : Named B) (hsingle : Single A) (hsingle' : Single B)
    (hjoined : Joined A = Joined B) (ha : A a = some (n, l)) (hb : B b = some (n, l'))
    (hl : l.Pairwise fun e e' => rank e ≤ rank e') (hl' : l'.Pairwise fun e e' => rank e ≤ rank e') :
    l.map named = l'.map named := by
  let key : Bytes × Int32 → Int ×ₗ List Nat := fun m => toLex (-m.2.toInt, chars m.1)
  refine map_named_eq key (fun a b hab => ?_) hl hl' (hsingle ha) (hsingle' hb) fun m v => ?_
  · exact chars_inj.mp (Prod.ext_iff.mp (toLex_inj.mp hab)).2
  · rw [hA.mem_iff ha, hB.mem_iff hb, hjoined]

theorem members_eq {A B : Side Addr Bytes Int32} {a b : Addr} {n : Bytes} {l l' : List Ref}
    (hA : Named A) (hB : Named B) (hsingle : Single A) (hsingle' : Single B)
    (hjoined : Joined A = Joined B) (ha : A a = some (n, l)) (hb : B b = some (n, l'))
    (hl : l.Pairwise fun e e' => chars e.name ≤ chars e'.name)
    (hl' : l'.Pairwise fun e e' => chars e.name ≤ chars e'.name) :
    l.map named = l'.map named := by
  refine map_named_eq (fun m => chars m.1) (fun a b hab => chars_inj.mp hab) hl hl'
    (hsingle ha) (hsingle' hb) fun m v => ?_
  rw [hA.mem_iff ha, hB.mem_iff hb, hjoined]

/-- Elements that show the same in one way show the same in another. -/
theorem map_eq_of_map {α β γ : Type} {own : α → β} {view : α → γ} {l l' : List α}
    (h : l.map own = l'.map own)
    (hview : ∀ e ∈ l, ∀ e' ∈ l', own e = own e' → view e = view e') :
    l.map view = l'.map view := by
  induction l generalizing l' with
  | nil => rw [List.map_eq_nil_iff.mp h.symm]
  | cons e l ih =>
    cases l' with
    | nil => cases h
    | cons e' l' =>
      obtain ⟨hhead, htail⟩ := List.cons.inj h
      rw [List.map_cons, List.map_cons, hview e List.mem_cons_self e' List.mem_cons_self hhead]
      exact congrArg _ (ih htail fun d hd d' hd' =>
        hview d (List.mem_cons_of_mem e hd) d' (List.mem_cons_of_mem e' hd'))

/-- A store without its addresses: the objects in their order, with their references in theirs. -/
def Store.view (s : Store) :=
  (s.localClients.entries.map fun e => e.2.view, s.localGroups.entries.map fun e => e.2.view,
    s.localRoles.entries.map fun e => e.2.view, s.anonymousName, s.defaultAccess)

/-- Stores with the same facts show the same. -/
theorem view_eq (hclose : P.Close) (h : s.Linked) (hord : s.Ordered P) (hx : x.Linked)
    (hxord : x.Ordered P) (hfacts : x.facts = s.facts)
    (hanon : x.anonymousName = s.anonymousName) : x.view = s.view := by
  have hcr : Joined x.clientRoles = Joined s.clientRoles := congrArg Facts.clientRole hfacts
  have hcg : Joined x.clientGroups = Joined s.clientGroups := congrArg Facts.clientGroup hfacts
  have hgr : Joined x.groupRoles = Joined s.groupRoles := congrArg Facts.groupRole hfacts
  have hback : ∀ {A B A' B' : Side Addr Bytes Int32}, Matched A B → Matched A' B' →
      Joined A = Joined A' → Joined B = Joined B' := by
    intro A B A' B' hm hm' hj
    funext n m v
    rw [← propext hm.joined_symm, ← propext hm'.joined_symm, hj]
  have hclients : x.localClients.entries.map (fun e => e.2.view) =
      s.localClients.entries.map fun e => e.2.view := by
    have howns : x.localClients.entries.map (fun e => e.2.own) =
        s.localClients.entries.map fun e => e.2.own := congrArg Facts.clients hfacts
    refine map_eq_of_map howns fun e he e' he' hown => ?_
    have hc := Table.mem_entries he
    have hc' := Table.mem_entries he'
    have hname : e.2.username = e'.2.username := congrArg Prod.fst hown
    obtain ⟨-, hr, hg⟩ := hxord.clients hc
    obtain ⟨-, hr', hg'⟩ := hord.clients hc'
    have hroles := refs_eq hx.clientRole.named h.clientRole.named hx.clientRole.single
      h.clientRole.single hcr (clientRoles_get hc) (hname ▸ clientRoles_get hc') (hr.sorted hclose)
      (hr'.sorted hclose)
    have hgroups := refs_eq hx.clientGroup.named h.clientGroup.named hx.clientGroup.single
      h.clientGroup.single hcg (clientGroups_get hc) (hname ▸ clientGroups_get hc')
      (hg.sorted hclose) (hg'.sorted hclose)
    show (e.2.own, _, _) = (e'.2.own, _, _)
    rw [hown, hroles, hgroups]
  have hgroups : x.localGroups.entries.map (fun e => e.2.view) =
      s.localGroups.entries.map fun e => e.2.view := by
    have howns : x.localGroups.entries.map (fun e => e.2.own) =
        s.localGroups.entries.map fun e => e.2.own := congrArg Facts.groups hfacts
    refine map_eq_of_map howns fun e he e' he' hown => ?_
    have hg := Table.mem_entries he
    have hg' := Table.mem_entries he'
    have hname : e.2.groupname = e'.2.groupname := congrArg Prod.fst hown
    obtain ⟨hr, hc⟩ := hxord.groups hg
    obtain ⟨hr', hc'⟩ := hord.groups hg'
    have hroles := refs_eq hx.groupRole.named h.groupRole.named hx.groupRole.single
      h.groupRole.single hgr (groupRoles_get hg) (hname ▸ groupRoles_get hg') (hr.sorted hclose)
      (hr'.sorted hclose)
    have hclients := members_eq hx.clientGroup.named' h.clientGroup.named' hx.clientGroup.single'
      h.clientGroup.single' (hback hx.clientGroup h.clientGroup hcg) (groupClients_get hg)
      (hname ▸ groupClients_get hg') hc.sorted hc'.sorted
    show (e.2.own, _, _) = (e'.2.own, _, _)
    rw [hown, hroles, hclients]
  have hroles : x.localRoles.entries.map (fun e => e.2.view) =
      s.localRoles.entries.map fun e => e.2.view := by
    have howns : x.localRoles.entries.map (fun e => e.2.own) =
        s.localRoles.entries.map fun e => e.2.own := congrArg Facts.roles hfacts
    refine map_eq_of_map howns fun e he e' he' hown => ?_
    have hr := Table.mem_entries he
    have hr' := Table.mem_entries he'
    have hname : e.2.rolename = e'.2.rolename := congrArg Prod.fst hown
    obtain ⟨-, hc, hg⟩ := hxord.roles hr
    obtain ⟨-, hc', hg'⟩ := hord.roles hr'
    have hclients := members_eq hx.clientRole.named' h.clientRole.named' hx.clientRole.single'
      h.clientRole.single' (hback hx.clientRole h.clientRole hcr) (roleClients_get hr)
      (hname ▸ roleClients_get hr') hc.sorted hc'.sorted
    have hgroups := refs_eq hx.groupRole.named' h.groupRole.named' hx.groupRole.single'
      h.groupRole.single' (hback hx.groupRole h.groupRole hgr) (roleGroups_get hr)
      (hname ▸ roleGroups_get hr') (hg.sorted hclose) (hg'.sorted hclose)
    show (e.2.own, _, _) = (e'.2.own, _, _)
    rw [hown, hclients, hgroups]
  unfold Store.view
  rw [hclients, hgroups, hroles, hanon]
  exact congrArg (fun access => (_, _, _, _, access)) (congrArg Facts.defaultAccess hfacts)

/-! ## What the answers depend on -/

/-- What an entry decides by. -/
def Standing.strip (st : Standing) : Bool × DynsecAcl := (st.literal, st.acl)

theorem search_view {α β : Type} (t : Table Addr α) (view : α → β) (p : β → Bool) :
    (t.search fun v => p (view v)).map (fun e => view e.2) =
      (t.entries.map fun e => view e.2).find? p := by
  rw [List.find?_map]
  rfl

theorem clientsFind_view (s : Store) (username : Bytes) :
    (s.clientsFind username).map (fun e => e.2.view) =
      s.view.1.find? fun v => v.1.1 = username :=
  search_view s.localClients Client.view fun v => v.1.1 = username

theorem groupsFind_view (s : Store) (groupname : Bytes) :
    (s.groupsFind groupname).map (fun e => e.2.view) =
      s.view.2.1.find? fun v => v.1.1 = groupname :=
  search_view s.localGroups Group.view fun v => v.1.1 = groupname

theorem rolesFind_view (s : Store) (rolename : Bytes) :
    (s.rolesFind rolename).map (fun e => e.2.view) =
      s.view.2.2.1.find? fun v => v.1.1 = rolename :=
  search_view s.localRoles Role.view fun v => v.1.1 = rolename

/-- A role that is found shows the same in both stores. -/
theorem rolesFind_same (hview : x.view = s.view) (rolename : Bytes) :
    (x.rolesFind rolename).map (fun e => e.2.view) =
      (s.rolesFind rolename).map fun e => e.2.view := by
  rw [rolesFind_view, rolesFind_view, hview]

theorem groupsFind_same (hview : x.view = s.view) (groupname : Bytes) :
    (x.groupsFind groupname).map (fun e => e.2.view) =
      (s.groupsFind groupname).map fun e => e.2.view := by
  rw [groupsFind_view, groupsFind_view, hview]

theorem clientsFind_same (hview : x.view = s.view) (username : Bytes) :
    (x.clientsFind username).map (fun e => e.2.view) =
      (s.clientsFind username).map fun e => e.2.view := by
  rw [clientsFind_view, clientsFind_view, hview]

def Store.namedEntries (s : Store) (access : Access) (rolename : Bytes) : List (Bool × DynsecAcl) :=
  (s.rolesFind rolename).elim [] fun e => roleEntries access e.2.acls

def Store.groupEntries (s : Store) (access : Access) (groupname : Bytes) :
    List (Bool × DynsecAcl) :=
  (s.groupsFind groupname).elim [] fun e =>
    e.2.rolelist.flatMap fun r => s.namedEntries access r.name

theorem strip_entriesOf (hbase : ∀ e ∈ base, ∃ role, s.localRoles.get e.addr = some role ∧
    role.rolename = e.name) (h : s.Linked) (access : Access) (group : Option Ref) :
    (s.entriesOf access group base).map Standing.strip =
      base.flatMap fun e => s.namedEntries access e.name := by
  unfold Store.entriesOf
  rw [List.map_flatMap]
  refine List.flatMap_congr fun e he => ?_
  obtain ⟨role, hr, hname⟩ := hbase e he
  have hfind := h.rolesFind hr
  rw [hname] at hfind
  unfold Store.namedEntries
  rw [hr, hfind, Option.elim_some, Option.elim_some, List.map_map]
  exact List.map_id _

/-- If no topic comes twice, the entries in their order say which are looked at. -/
theorem roleEntries_congr {acls acls' : AclType → AclList}
    (h : ∀ type, (acls type).entries = (acls' type).entries)
    (hnodup : ∀ type, ((acls' type).entries.map (·.topic)).Nodup) (access : Access) :
    roleEntries access acls = roleEntries access acls' := by
  have hfound : ∀ type, (acls type).found = (acls' type).found := by
    intro type
    rw [UtHash.found_of_nodup (hnodup type), UtHash.found_of_nodup (h type ▸ hnodup type), h]
  cases access <;> simp only [roleEntries, filterEntries, h, hfound]

theorem namedEntries_same (hord : s.Ordered P) (hsingle : P.single) (hview : x.view = s.view)
    (access : Access) (rolename : Bytes) :
    x.namedEntries access rolename = s.namedEntries access rolename := by
  have hsame := rolesFind_same hview rolename
  unfold Store.namedEntries
  cases hf : s.rolesFind rolename with
  | none =>
    rw [hf, Option.map_none, Option.map_eq_none_iff] at hsame
    rw [hsame]
  | some e =>
    rw [hf, Option.map_some] at hsame
    obtain ⟨e', he', heq⟩ := Option.map_eq_some_iff.mp hsame
    have hacls : (fun type => (e'.2.acls type).entries) = fun type => (e.2.acls type).entries :=
      congrArg (fun v => v.1.2.2.2) heq
    have hkind := (hord.roles (rolesFind_some hf).1).1
    rw [he', Option.elim_some, Option.elim_some]
    exact roleEntries_congr (congrFun hacls) (fun type => (hkind type).nodup hsingle) access

/-- Entries are told apart by the names alone. -/
theorem flatMap_named_eq {f f' : Bytes → List (Bool × DynsecAcl)} {l l' : List Ref}
    (hl : l.map named = l'.map named) (hf : ∀ n, f n = f' n) :
    (l.flatMap fun e => f e.name) = l'.flatMap fun e => f' e.name := by
  have hread : ∀ (f : Bytes → List (Bool × DynsecAcl)) (l : List Ref),
      (l.flatMap fun e => f e.name) = (l.map named).flatMap fun m => f m.1 := by
    intro f l
    rw [List.flatMap_map]
    rfl
  rw [hread, hread, hl, funext hf]

theorem groupEntries_same (hord : s.Ordered P) (hsingle : P.single) (hview : x.view = s.view)
    (access : Access) (groupname : Bytes) :
    x.groupEntries access groupname = s.groupEntries access groupname := by
  have hsame := groupsFind_same hview groupname
  unfold Store.groupEntries
  cases hf : s.groupsFind groupname with
  | none =>
    rw [hf, Option.map_none, Option.map_eq_none_iff] at hsame
    rw [hsame, Option.elim_none, Option.elim_none]
  | some e =>
    rw [hf, Option.map_some] at hsame
    obtain ⟨e', he', heq⟩ := Option.map_eq_some_iff.mp hsame
    rw [he', Option.elim_some, Option.elim_some]
    exact flatMap_named_eq (congrArg (fun v => v.2.1) heq)
      (namedEntries_same hord hsingle hview access)

/-- The entries of a client, by the names of its roles and groups. -/
def Store.entriesByName (s : Store) (access : Access) (u : Option Bytes) :
    List (Bool × DynsecAcl) :=
  match u with
  | some username => (s.clientsFind username).elim [] fun e =>
      (e.2.rolelist.flatMap fun r => s.namedEntries access r.name) ++
        e.2.grouplist.flatMap fun g => s.groupEntries access g.name
  | none => s.anonymousName.elim [] fun groupname => s.groupEntries access groupname

theorem strip_group (h : s.Linked) (hg : s.localGroups.get g = some group) (access : Access)
    (e : Option Ref) : (s.entriesOf access e group.rolelist).map Standing.strip =
      s.groupEntries access group.groupname := by
  rw [strip_entriesOf (fun r hr => h.roleOfGroup hg hr) h]
  unfold Store.groupEntries
  rw [h.groupsFind hg, Option.elim_some]

theorem strip_standings (h : s.Linked) (access : Access) (u : Option Bytes) :
    (s.standings access u).map Standing.strip = s.entriesByName access u := by
  unfold Store.standings Store.entriesByName
  cases u with
  | none =>
    unfold Store.anonymousName
    cases hanon : s.dynsecAnonymousGroup with
    | none => rfl
    | some g =>
      obtain ⟨group, hg⟩ := Table.live_iff.mp (h.anonymous g hanon)
      simp only [hg, Option.elim_some, Option.bind_some, Option.map_some]
      exact strip_group h hg access none
  | some username =>
    simp only
    cases hf : s.clientsFind username with
    | none => rfl
    | some found =>
      obtain ⟨hc, -⟩ := clientsFind_some hf
      simp only [Option.elim_some]
      rw [List.map_append, strip_entriesOf (fun e he => h.roleOfClient hc he) h, List.map_flatMap]
      refine congrArg _ (List.flatMap_congr fun e he => ?_)
      obtain ⟨group, hg, hname⟩ := h.groupOfClient hc he
      rw [hg, Option.elim_some, ← hname]
      exact strip_group h hg access (some e)

theorem entriesByName_same (hord : s.Ordered P) (hsingle : P.single) (hview : x.view = s.view)
    (access : Access) (u : Option Bytes) :
    x.entriesByName access u = s.entriesByName access u := by
  unfold Store.entriesByName
  cases u with
  | none =>
    have hanon : x.anonymousName = s.anonymousName := congrArg (fun v => v.2.2.2.1) hview
    simp only [hanon, groupEntries_same hord hsingle hview]
  | some username =>
    have hsame := clientsFind_same hview username
    simp only
    cases hf : s.clientsFind username with
    | none =>
      rw [hf, Option.map_none, Option.map_eq_none_iff] at hsame
      rw [hsame, Option.elim_none, Option.elim_none]
    | some e =>
      rw [hf, Option.map_some] at hsame
      obtain ⟨e', he', heq⟩ := Option.map_eq_some_iff.mp hsame
      rw [he', Option.elim_some, Option.elim_some,
        flatMap_named_eq (congrArg (fun v => v.2.1) heq)
          (namedEntries_same hord hsingle hview access),
        flatMap_named_eq (congrArg (fun v => v.2.2) heq)
          (groupEntries_same hord hsingle hview access)]

/-- **The check of a topic depends on what a store shows,** if no list of entries has a topic
twice. -/
theorem aclCheck_view (h : s.Linked) (hx : x.Linked) (hord : s.Ordered P) (hsingle : P.single)
    (hview : x.view = s.view) (access : Access) (u : Option Bytes) (topic : Bytes) :
    aclCheckCallback x access u topic = aclCheckCallback s access u topic := by
  have hstrip : ∀ l : List Standing,
      (l.find? (Standing.hits access topic)).map (·.acl.decision) =
        ((l.map Standing.strip).find? fun e => applies access topic e.1 e.2).map
          (·.2.decision) := by
    intro l
    rw [List.find?_map, Option.map_map]
    rfl
  have hentries : (x.standings access u).map Standing.strip =
      (s.standings access u).map Standing.strip := by
    rw [strip_standings hx, strip_standings h, entriesByName_same hord hsingle hview]
  have hfound : ((x.standings access u).find? (Standing.hits access topic)).map (·.acl.decision) =
      ((s.standings access u).find? (Standing.hits access topic)).map (·.acl.decision) := by
    rw [hstrip, hstrip, hentries]
  have hdefault : x.defaultAccess = s.defaultAccess := congrArg (fun v => v.2.2.2.2) hview
  have hthere : ∀ username, (x.clientsFind username).isSome = (s.clientsFind username).isSome := by
    intro username
    have hsome := congrArg Option.isSome (clientsFind_same hview username)
    rw [Option.isSome_map, Option.isSome_map] at hsome
    exact hsome
  have hotherwise : x.otherwise access u topic = s.otherwise access u topic := by
    unfold Store.otherwise
    rw [hdefault, funext hthere]
  have helim : ∀ (o : Option Standing) (rc : Rc),
      o.elim rc (·.acl.decision) = (o.map (·.acl.decision)).getD rc := by
    intro o rc
    cases o <;> rfl
  rw [aclCheckCallback_eq hx, aclCheckCallback_eq h, helim, helim, hfound, hotherwise]

/-- Logging in depends on what a store shows. -/
theorem basicAuth_view (hview : x.view = s.view) (u password clientid : Option Bytes) :
    basicAuthCallback crypto x u password clientid =
      basicAuthCallback crypto s u password clientid := by
  unfold basicAuthCallback
  cases u with
  | none => rfl
  | some username =>
    cases password with
    | none => rfl
    | some password =>
      have hsame := clientsFind_same hview username
      simp only
      cases hf : s.clientsFind username with
      | none =>
        rw [hf, Option.map_none, Option.map_eq_none_iff] at hsame
        rw [hsame]
      | some e =>
        rw [hf, Option.map_some] at hsame
        obtain ⟨e', he', heq⟩ := Option.map_eq_some_iff.mp hsame
        have hid : e'.2.clientid = e.2.clientid := congrArg (fun v => v.1.2.1) heq
        have hpw : e'.2.pw = e.2.pw := congrArg (fun v => v.1.2.2.2.2.1) heq
        have hdisabled : e'.2.disabled = e.2.disabled := congrArg (fun v => v.1.2.2.2.2.2) heq
        rw [he']
        simp only [hid, hpw, hdisabled]

end AdaptiveMqtt.Dynsec
