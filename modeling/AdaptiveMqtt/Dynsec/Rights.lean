import AdaptiveMqtt.Dynsec.AclCheck
import AdaptiveMqtt.Dynsec.Commands

/-!
# Rights and credentials

What a client may do and what it logs in with change by an edit only if the edit concerns it.
So a command changes them only for those it kicks, and for those it should but does not.
-/

namespace AdaptiveMqtt.Dynsec

open Lib Security Links Store

/-! ## Logging in -/

def authError : Rc := 11

def basicAuthCallback (crypto : Crypto) (s : Store) (username password clientid : Option Bytes) :
    Rc :=
  match username, password with
  | some username, some password =>
    match s.clientsFind username with
    | none => pluginDefer
    | some (_, client) =>
      if client.disabled then authError
      else if client.clientid.isSome ∧ clientid ≠ client.clientid then authError
      else if client.pw.valid ∧ ¬ client.pw.iterations < 1 then
        if crypto.pbkdf2 password client.pw.salt client.pw.iterations = client.pw.passwordHash then
          Rc.success
        else authError
      else pluginDefer
  | _, _ => pluginDefer

/-! ## What concerns a client -/

/-- The client's own lists and credentials, at its address. -/
def Store.own (s : Store) (u : Option Bytes) (c : Addr) :
    Option (List Ref × List Ref × Option Bytes × Pw × Bool) :=
  ((s.localClients.get c).filter fun client => u = some client.username).map fun client =>
    (client.rolelist, client.grouplist, client.credentials)

/-- Nothing that concerns a client differs. -/
structure Same (u : Option Bytes) (s s' : Store) : Prop where
  own : ∀ c, s'.own u c = s.own u c
  anonymous : u = none → s'.dynsecAnonymousGroup = s.dynsecAnonymousGroup
  groups : ∀ g, s.InGroup u g →
    (s'.localGroups.get g).map Group.rolelist = (s.localGroups.get g).map Group.rolelist
  roles : ∀ r, s.Holds u r →
    (s'.localRoles.get r).map Role.acls = (s.localRoles.get r).map Role.acls
  defaults : s'.defaultAccess = s.defaultAccess

variable {s s' : Store} {c g r : Addr} {client : Client} {group : Group} {role : Role}
  {prio : Int32} {K : Option Bytes → Prop} {P : Kind} {u : Option Bytes} {access : Access}
  {topic username : Bytes} {crypto : Crypto}

/-! ## An edit that does not concern a client -/

section Tables

end Tables

theorem not_inGroup_fresh (h : s.Linked) (hg : s.localGroups.get g = none) : ¬ s.InGroup u g := by
  rintro (⟨group, hg', -⟩ | ⟨-, hanon⟩)
  · rw [hg] at hg'
    cases hg'
  · obtain ⟨group, hg'⟩ := Table.live_iff.mp (h.anonymous g hanon)
    rw [hg] at hg'
    cases hg'

theorem clientsFind_iff (h : s.Linked) : s.clientsFind username = some (c, client) ↔
    s.localClients.get c = some client ∧ client.username = username :=
  ⟨clientsFind_some, fun ⟨hc, hname⟩ => hname ▸ h.clientsFind hc⟩

theorem own_eq : s.own (some username) c = some (x, y, z) ↔ ∃ client,
    s.localClients.get c = some client ∧ client.username = username ∧ client.rolelist = x ∧
      client.grouplist = y ∧ client.credentials = z := by
  unfold Store.own
  constructor
  · intro h
    obtain ⟨client, hf, heq⟩ := Option.map_eq_some_iff.mp h
    obtain ⟨hc, hname⟩ := Option.filter_eq_some_iff.mp hf
    cases heq
    exact ⟨client, hc, (Option.some.inj (of_decide_eq_true hname)).symm, rfl, rfl, rfl⟩
  · rintro ⟨client, hc, rfl, rfl, rfl, rfl⟩
    simp only [hc, Option.filter_some, decide_true, if_true, Option.map_some]

/-- A client that nothing concerned is found with the same lists. -/
theorem Same.find (h : s.Linked) (h' : s'.Linked) (hsame : Same (some username) s s') :
    (s'.clientsFind username).map (fun x => (x.1, x.2.rolelist, x.2.grouplist, x.2.credentials)) =
      (s.clientsFind username).map fun x =>
        (x.1, x.2.rolelist, x.2.grouplist, x.2.credentials) := by
  have hside : ∀ {s s' : Store}, s.Linked → s'.Linked →
      (∀ c, s'.own (some username) c = s.own (some username) c) → ∀ w,
      (s.clientsFind username).map (fun x =>
        (x.1, x.2.rolelist, x.2.grouplist, x.2.credentials)) = some w →
      (s'.clientsFind username).map (fun x =>
        (x.1, x.2.rolelist, x.2.grouplist, x.2.credentials)) = some w := by
    intro s s' h h' hown w hw
    obtain ⟨⟨c, client⟩, hf, rfl⟩ := Option.map_eq_some_iff.mp hw
    obtain ⟨hc, hname⟩ := (clientsFind_iff h).mp hf
    have hview := (hown c).trans (own_eq.mpr ⟨client, hc, hname, rfl, rfl, rfl⟩)
    obtain ⟨client', hc', hname', hroles, hgroups, hcred⟩ := own_eq.mp hview
    rw [(clientsFind_iff h').mpr ⟨hc', hname'⟩, Option.map_some, hroles, hgroups, hcred]
  exact Option.ext fun w => ⟨hside h' h (fun c => (hsame.own c).symm) w, hside h h' hsame.own w⟩

/-- The same roles in a list. -/
theorem entriesOf_congr {base : List Ref} (hbase : ∀ e ∈ base,
    (s'.localRoles.get e.addr).map Role.acls = (s.localRoles.get e.addr).map Role.acls)
    (access : Access) (group : Option Ref) :
    s'.entriesOf access group base = s.entriesOf access group base := by
  unfold Store.entriesOf
  refine List.flatMap_congr fun e he => ?_
  have hacls := hbase e he
  cases hr : s.localRoles.get e.addr with
  | none =>
    rw [hr, Option.map_none, Option.map_eq_none_iff] at hacls
    rw [hacls]
  | some role =>
    rw [hr, Option.map_some] at hacls
    obtain ⟨role', hr', heq⟩ := Option.map_eq_some_iff.mp hacls
    rw [hr', Option.elim_some, Option.elim_some, heq]

theorem Store.Linked.holds (h : s.Linked) (hc : s.localClients.get c = some client) {e : Ref}
    (he : e ∈ client.rolelist) : s.Holds (some client.username) e.addr := by
  obtain ⟨k, hk, hmem⟩ := h.clientRole.forth (clientRoles_get hc) e he
  obtain ⟨role, hr, -, rfl⟩ := get_of_side hk
  exact ⟨role, hr, .inl ⟨_, hmem, rfl⟩⟩

theorem Store.Linked.inGroup (h : s.Linked) (hc : s.localClients.get c = some client) {e : Ref}
    (he : e ∈ client.grouplist) : s.InGroup (some client.username) e.addr := by
  obtain ⟨k, hk, hmem⟩ := h.clientGroup.forth (clientGroups_get hc) e he
  obtain ⟨group, hg, -, rfl⟩ := get_of_side hk
  exact .inl ⟨group, hg, _, hmem, rfl⟩

theorem Store.Linked.holds_of_group (h : s.Linked) (hg : s.localGroups.get g = some group)
    (hin : s.InGroup u g) {e : Ref} (he : e ∈ group.rolelist) : s.Holds u e.addr := by
  obtain ⟨k, hk, hmem⟩ := h.groupRole.forth (groupRoles_get hg) e he
  obtain ⟨role, hr, -, rfl⟩ := get_of_side hk
  exact ⟨role, hr, .inr ⟨_, hmem, hin⟩⟩

theorem Same.groupEntries (h : s.Linked) (hsame : Same u s s') (hin : s.InGroup u g)
    (access : Access) (e : Option Ref) :
    ((s'.localGroups.get g).elim [] fun group => s'.entriesOf access e group.rolelist) =
      (s.localGroups.get g).elim [] fun group => s.entriesOf access e group.rolelist := by
  have hroles := hsame.groups g hin
  cases hg : s.localGroups.get g with
  | none => exact absurd hin (not_inGroup_fresh h hg)
  | some group =>
    rw [hg, Option.map_some] at hroles
    obtain ⟨group', hg', heq⟩ := Option.map_eq_some_iff.mp hroles
    rw [hg', Option.elim_some, Option.elim_some, heq]
    exact entriesOf_congr (fun r hr => hsame.roles _ (h.holds_of_group hg hin hr)) access e

theorem Same.standings (h : s.Linked) (h' : s'.Linked) (hsame : Same u s s') (access : Access) :
    s'.standings access u = s.standings access u := by
  unfold Store.standings
  cases u with
  | none =>
    rw [hsame.anonymous rfl]
    cases hanon : s.dynsecAnonymousGroup with
    | none => rfl
    | some g => exact hsame.groupEntries h (.inr ⟨rfl, hanon⟩) access none
  | some username =>
    have hfind := hsame.find h h'
    simp only
    cases hf : s.clientsFind username with
    | none =>
      rw [hf, Option.map_none, Option.map_eq_none_iff] at hfind
      rw [hfind]
    | some x =>
      rw [hf, Option.map_some] at hfind
      obtain ⟨x', hf', heq⟩ := Option.map_eq_some_iff.mp hfind
      simp only [Prod.mk.injEq] at heq
      obtain ⟨-, hroles, hgroups, -⟩ := heq
      obtain ⟨hc, hname⟩ := clientsFind_some hf
      rw [hf']
      simp only [hroles, hgroups]
      refine congrArg₂ (· ++ ·) ?_ (List.flatMap_congr fun e he => ?_)
      · exact entriesOf_congr (fun e he => hsame.roles _ (hname ▸ h.holds hc he)) access none
      · exact hsame.groupEntries h (hname ▸ h.inGroup hc he) access (some e)

/-- **What does not concern a client does not change what it may do.** -/
theorem Same.aclCheck (h : s.Linked) (h' : s'.Linked) (hsame : Same u s s') (access : Access)
    (topic : Bytes) : aclCheckCallback s' access u topic = aclCheckCallback s access u topic := by
  have hother : s'.otherwise access u topic = s.otherwise access u topic := by
    unfold Store.otherwise
    rw [hsame.defaults]
    cases u with
    | none => rfl
    | some username =>
      have hfind := congrArg Option.isSome (hsame.find h h')
      rw [Option.isSome_map, Option.isSome_map] at hfind
      simp only [Option.all_some, hfind]
  rw [aclCheckCallback_eq h', aclCheckCallback_eq h, hsame.standings h h', hother]

end AdaptiveMqtt.Dynsec
