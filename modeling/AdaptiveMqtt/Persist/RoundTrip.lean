import AdaptiveMqtt.Persist.Subs

/-!
# What comes through the file

`persist__restore` of the file of `persist__backup`, for a broker whose pointers are valid and
whose strings have lengths that the chunks can hold. The messages in `msgs_out.storage` and the
shared subscriptions are not in the file: the durable clients have all their outgoing messages
and shared subscriptions back exactly if they had none of these (`sessions_kept_iff`).
-/

namespace AdaptiveMqtt.Persist

open Lib Packet Topic Db Broker AdaptiveMqtt.Sub

theorem mem_persistRetainSave {b : State} {fuel : Nat} : ∀ {node : Path} {chunk : Chunk},
    chunk ∈ persistRetainSave b fuel node → ∃ node h stored, b.retains.get node = some h ∧
      h.retained = some stored ∧ chunk = .retain ⟨UInt64.ofNat stored.addr⟩ := by
  induction fuel with
  | zero => exact fun h => (nomatch h)
  | succ fuel ih =>
    intro node chunk hmem
    rw [persistRetainSave] at hmem
    split at hmem
    · cases hmem
    · rename_i h hnode
      rcases List.mem_append.mp hmem with hmem | hmem
      · rw [Option.mem_toList, Option.map_eq_some_iff] at hmem
        obtain ⟨stored, hstored, rfl⟩ := hmem
        exact ⟨node, h, stored, hnode, (Option.filter_eq_some_iff.mp hstored).1, rfl⟩
      · obtain ⟨topic, -, hmem⟩ := List.mem_flatMap.mp hmem
        exact ih hmem

theorem mem_persistRetainSaveAll {b : State} {chunk : Chunk} (hmem : chunk ∈ persistRetainSaveAll b) :
    ∃ node h stored, b.retains.get node = some h ∧ h.retained = some stored ∧
      chunk = .retain ⟨UInt64.ofNat stored.addr⟩ := by
  obtain ⟨root, -, hmem⟩ := List.mem_flatMap.mp hmem
  split at hmem
  · cases hmem
  · exact mem_persistRetainSave hmem

/-! ## A broker that can be saved -/

/-- A message of a client refers to a store of the database. -/
structure Referring (w : World) (direction : Direction) (msg : ClientMsg) : Prop where
  direction : msg.direction = direction
  store : ∃ e, w.broker.db.msgStore.get msg.store.addr = some e ∧ e.store = msg.store ∧
    1 ≤ e.refCount
  properties : PublishProperties msg.properties

/-- What holds between two calls of the broker: its pointers are valid, its strings were
received in packets and its filters checked. No message expires by this clock. -/
structure Savable (clock : Nat → Reading) (w : World) : Prop where
  byId : ∀ id c, w.broker.contextsById.get id = some c → ∃ ctx,
    w.broker.contexts.get c = some ctx ∧ ctx.id = some id
  ids : ∀ c ctx id, w.broker.contexts.get c = some ctx → ctx.id = some id →
    id ≠ [] ∧ id.length ≤ 65535
  incoming : ∀ c ctx, w.broker.contexts.get c = some ctx →
    ∀ msg ∈ ctx.msgsIn.inflight ++ ctx.msgsIn.queued, Referring w .mdIn msg
  outgoing : ∀ c ctx, w.broker.contexts.get c = some ctx →
    ∀ msg ∈ ctx.msgsOut.inflight ++ ctx.msgsOut.queued, Referring w .mdOut msg
  stores : ∀ addr e, w.broker.db.msgStore.get addr = some e →
    e.store.addr = addr ∧ Keepable clock e.store
  tree : Named w.broker.subs.tree
  retained : ∀ node h stored, w.broker.retains.get node = some h → h.retained = some stored →
    (∃ e, w.broker.db.msgStore.get stored.addr = some e ∧ e.store = stored) ∧
      ∃ r, subTopicTokenise stored.topic = .ok r

section Saved

variable {clock : Nat → Reading} {w : World} {load : Heap UInt64 MsgStore}

def savedStores (w : World) : List MsgStore :=
  ((w.broker.db.msgStore.entries.map (·.2)).filter fun e =>
    !decide (e.refCount < 1) && !unsaved e).map (·.store)

theorem persistMessageStoreSave_eq (w : World) : persistMessageStoreSave w =
    (savedStores w).map fun s => .msgStore (msgStoreChunk (w.origins s.addr) s) := by
  rw [persistMessageStoreSave, savedStores, List.map_map]
  rfl

theorem mem_savedStores {s : MsgStore} : s ∈ savedStores w ↔ ∃ addr e,
    w.broker.db.msgStore.get addr = some e ∧ e.store = s ∧ 1 ≤ e.refCount ∧ unsaved e = false := by
  simp only [savedStores, List.mem_map, List.mem_filter, Bool.and_eq_true, Bool.not_eq_true',
    decide_eq_false_iff_not]
  constructor
  · rintro ⟨e, ⟨⟨⟨addr, e'⟩, hmem, rfl⟩, href, huns⟩, rfl⟩
    exact ⟨addr, e', (Heap.mem_entries_iff _ _ _).mp hmem, rfl, Int.not_lt.mp href, huns⟩
  · rintro ⟨addr, e, hget, rfl, href, huns⟩
    exact ⟨e, ⟨⟨⟨addr, e⟩, (Heap.mem_entries_iff _ _ _).mpr hget, rfl⟩, Int.not_lt.mpr href, huns⟩,
      rfl⟩

theorem Savable.keepable (hw : Savable clock w) {s : MsgStore} (hs : s ∈ savedStores w) :
    Keepable clock s := by
  obtain ⟨addr, e, hget, rfl, -⟩ := mem_savedStores.mp hs
  exact (hw.stores addr e hget).2

theorem Savable.nodup_savedStores (hw : Savable clock w) :
    ((savedStores w).map (·.addr)).Nodup := by
  -- the addresses are the keys of the database
  have hkeys : (w.broker.db.msgStore.entries.map (·.2)).map (·.store.addr) =
      w.broker.db.msgStore.keys := by
    rw [List.map_map]
    refine List.map_congr_left fun e he => ?_
    exact (hw.stores e.1 e.2 ((Heap.mem_entries_iff _ _ _).mp he)).1
  rw [savedStores, List.map_map]
  refine List.Nodup.sublist (List.filter_sublist.map _) ?_
  exact hkeys ▸ w.broker.db.msgStore.keys_nodup

/-- The stores of the file are found under their ids, and nothing else is. -/
structure Loads (w : World) (load : Heap UInt64 MsgStore) : Prop where
  found : ∀ s ∈ savedStores w, ∃ s', load.get (UInt64.ofNat s.addr) = some s' ∧ SameContent s' s
  other : ∀ k, (∀ s ∈ savedStores w, UInt64.ofNat s.addr ≠ k) → load.get k = none

def inFile (db : MosquittoDb) (cmsg : ClientMsg) : Bool :=
  !(db.msgStore.get cmsg.store.addr).any unsaved

theorem added_incoming (id id' : Bytes) {msg : ClientMsg} (hm : Referring w .mdIn msg) :
    added load id (.clientMsg (clientMsgChunk id' msg)) = [] := by
  have hdir : (clientMsgChunk id' msg).F.direction = 0 := by
    show directionByte msg.direction = 0
    rw [hm.direction]
    rfl
  rw [added, if_neg]
  rw [hdir]
  exact fun h => absurd h.2 (by decide)

theorem added_outgoing (hl : Loads w load) (id : Bytes) {id' : Bytes}
    (hid : id' ≠ [] ∧ id'.length ≤ 65535) {msg : ClientMsg} (hm : Referring w .mdOut msg)
    (hin : inFile w.broker.db msg = true) :
    added load id (.clientMsg (clientMsgChunk id' msg)) = if id' = id then [content msg] else [] := by
  obtain ⟨e, hget, hstore, href⟩ := hm.store
  have huns : unsaved e = false := by
    rw [inFile, hget] at hin
    simpa using hin
  obtain ⟨s', hload, hcontent⟩ := hl.found msg.store
    (mem_savedStores.mpr ⟨msg.store.addr, e, hget, hstore, href, huns⟩)
  have hdir : (clientMsgChunk id' msg).F.direction = 1 := by
    show directionByte msg.direction = 1
    rw [hm.direction]
    rfl
  have hclient : (clientMsgChunk id' msg).loaded.clientId = some id' := loaded_id hid
  have hstoreId : (clientMsgChunk id' msg).F.storeId = UInt64.ofNat msg.store.addr := rfl
  have hqos : qosOf (clientMsgChunk id' msg).F.qos = msg.qos := qosOf_qosByte msg.qos
  rw [added, hclient, hstoreId, hload, hqos, hdir]
  by_cases he : id' = id
  · rw [if_pos ⟨congrArg some he, rfl⟩, if_pos he]
    obtain ⟨htopic, hpayload, hprops⟩ := hcontent
    show [contentOf s' msg.mid msg.qos msg.properties] = [content msg]
    rw [contentOf, content, contentOf, htopic, hpayload, hprops]
  · rw [if_neg fun h => he (Option.some.inj h.1), if_neg he]

theorem added_messages_incoming (id id' : Bytes) {queue : List ClientMsg}
    (hm : ∀ msg ∈ queue, Referring w .mdIn msg) :
    (persistClientMessagesSave w.broker.db id' queue).flatMap (added load id) = [] := by
  rw [persistClientMessagesSave, List.flatMap_map, List.flatMap_eq_nil_iff]
  exact fun msg hmem => added_incoming id id' (hm msg (List.mem_of_mem_filter hmem))

theorem added_messages_outgoing (hl : Loads w load) (id : Bytes) {id' : Bytes}
    (hid : id' ≠ [] ∧ id'.length ≤ 65535) {queue : List ClientMsg}
    (hm : ∀ msg ∈ queue, Referring w .mdOut msg) :
    (persistClientMessagesSave w.broker.db id' queue).flatMap (added load id) =
      if id' = id then (queue.filter (inFile w.broker.db)).map content else [] := by
  have hadd : ∀ msg ∈ queue.filter (inFile w.broker.db),
      added load id (.clientMsg (clientMsgChunk id' msg)) =
        if id' = id then [content msg] else [] := by
    intro msg hmem
    obtain ⟨hmsg, hin⟩ := List.mem_filter.mp hmem
    exact added_outgoing hl id hid (hm msg hmsg) hin
  have hqueue : (persistClientMessagesSave w.broker.db id' queue).flatMap (added load id) =
      (queue.filter (inFile w.broker.db)).flatMap fun msg =>
        if id' = id then [content msg] else [] := by
    rw [persistClientMessagesSave, List.flatMap_map]
    exact List.flatMap_congr hadd
  rw [hqueue]
  split
  · exact List.map_eq_flatMap.symm
  · exact List.flatMap_eq_nil_iff.mpr fun _ _ => rfl

/-! ## The messages of a client -/

/-- A list of which only the element with one key counts. -/
theorem flatMap_of_key {α β κ : Type} (key : α → κ) {f : α → List β} {l : List α}
    (hnd : (l.map key).Nodup) {a : α} (ha : a ∈ l) (hf : ∀ x ∈ l, key x ≠ key a → f x = []) :
    l.flatMap f = f a := by
  induction l with
  | nil => cases ha
  | cons x l ih =>
    obtain ⟨hx, hl⟩ := List.forall_mem_cons.mp hf
    rw [List.map_cons, List.nodup_cons] at hnd
    rw [List.flatMap_cons]
    rcases List.mem_cons.mp ha with rfl | ha
    · have hrest : l.flatMap f = [] := List.flatMap_eq_nil_iff.mpr fun y hy => by
        refine hl y hy fun he => hnd.1 ?_
        rw [← he]
        exact List.mem_map_of_mem hy
      rw [hrest, List.append_nil]
    · have hother : f x = [] := hx fun he => hnd.1 (he ▸ List.mem_map_of_mem ha)
      rw [hother, ih hnd.2 ha hl, List.nil_append]

theorem mem_clients (hw : Savable clock w) {c : Client} (hc : c ∈ w.clients) :
    ∃ cid, w.broker.contextsById.get c.id = some cid ∧
      w.broker.contexts.get cid = some c.context ∧ c.context.id = some c.id := by
  obtain ⟨⟨id, cid⟩, hmem, hmap⟩ := List.mem_filterMap.mp hc
  have hget := (Heap.mem_entries_iff _ _ _).mp hmem
  obtain ⟨ctx, hctx, hid⟩ := hw.byId id cid hget
  rw [hctx] at hmap
  obtain rfl := Option.some.inj hmap
  have hname : Client.id ⟨ctx, w.logins cid⟩ = id := by rw [Client.id, hid, Option.getD_some]
  rw [hname]
  exact ⟨cid, hget, hctx, hid⟩

theorem Savable.client_id (hw : Savable clock w) {c : Client} (hc : c ∈ w.clients) :
    c.id ≠ [] ∧ c.id.length ≤ 65535 := by
  obtain ⟨cid, -, hctx, hid⟩ := mem_clients hw hc
  exact hw.ids cid c.context c.id hctx hid

theorem Savable.nodup_clients (hw : Savable clock w) : (w.clients.map Client.id).Nodup := by
  have hkeys : w.clients.map Client.id = w.broker.contextsById.keys := by
    rw [World.clients, List.map_filterMap]
    have hsome : ∀ e ∈ w.broker.contextsById.entries,
        ((w.broker.contexts.get e.2).map fun ctx => (⟨ctx, w.logins e.2⟩ : Client)).map Client.id =
          some e.1 := by
      intro e he
      obtain ⟨ctx, hctx, hid⟩ := hw.byId e.1 e.2 ((Heap.mem_entries_iff _ _ _).mp he)
      rw [hctx, Option.map_some, Option.map_some, Client.id, hid, Option.getD_some]
    rw [List.filterMap_congr hsome]
    exact congrFun List.filterMap_eq_map _
  rw [hkeys]
  exact w.broker.contextsById.keys_nodup

/-- The chunks of the loop are those of the clients that are saved. -/
theorem map_fst_clientChunks (host : ByteOrder) : ∀ (clients : List Client) (chunk : PClient Memory),
    (clientChunks host chunk clients).map (·.1) = clients.filter fun c =>
      c.context.cleanStart = false ∧ UInt16.ofNat c.id.length ≠ 0
  | [], _ => rfl
  | c :: clients, chunk => by
    rw [clientChunks, List.filter_cons]
    by_cases hclean : c.context.cleanStart = false
    · simp only [if_pos hclean]
      rw [fillClient_idLen]
      by_cases hid : UInt16.ofNat c.id.length = 0
      · simp only [if_pos hid, map_fst_clientChunks host clients]
        simp [hid]
      · simp only [if_neg hid, List.map_cons, map_fst_clientChunks host clients]
        simp [hclean, hid]
    · simp only [if_neg hclean, map_fst_clientChunks host clients]
      simp [hclean]

theorem fst_mem_clients {host : ByteOrder} {p : Client × PClient Memory}
    (hp : p ∈ clientChunks host PClient.zero w.clients) : p.1 ∈ w.clients := by
  have hp' : p.1 ∈ (clientChunks host PClient.zero w.clients).map (·.1) := List.mem_map_of_mem hp
  rw [map_fst_clientChunks] at hp'
  exact List.mem_of_mem_filter hp'

theorem idLen_clientChunks (host : ByteOrder) : ∀ (clients : List Client) (chunk : PClient Memory),
    ∀ p ∈ clientChunks host chunk clients, p.2.F.idLen ≠ 0
  | [], _, _, h => (nomatch h)
  | c :: clients, chunk, p, h => by
    rw [clientChunks] at h
    split at h
    · simp only at h
      split at h
      · exact idLen_clientChunks host clients _ p h
      · rename_i hid
        rcases List.mem_cons.mp h with rfl | h
        · exact hid
        · exact idLen_clientChunks host clients _ p h
    · exact idLen_clientChunks host clients _ p h

theorem added_client (hw : Savable clock w) (hl : Loads w load) (id : Bytes) {c : Client}
    (hc : c ∈ w.clients) (chunk : PClient Memory) :
    (Chunk.client chunk ::
      (persistClientMessagesSave w.broker.db c.id c.context.msgsIn.inflight ++
        persistClientMessagesSave w.broker.db c.id c.context.msgsIn.queued ++
        persistClientMessagesSave w.broker.db c.id c.context.msgsOut.inflight ++
        persistClientMessagesSave w.broker.db c.id c.context.msgsOut.queued)).flatMap
      (added load id) =
    if c.id = id then ((c.context.msgsOut.inflight ++ c.context.msgsOut.queued).filter
      (inFile w.broker.db)).map content else [] := by
  obtain ⟨cid, -, hctx, -⟩ := mem_clients hw hc
  have hin := List.forall_mem_append.mp (hw.incoming cid c.context hctx)
  have hout := List.forall_mem_append.mp (hw.outgoing cid c.context hctx)
  have hid := hw.client_id hc
  have hclient : added load id (.client chunk) = [] := rfl
  simp only [List.flatMap_cons, List.flatMap_append, hclient, List.nil_append,
    added_messages_incoming id c.id hin.1, added_messages_incoming id c.id hin.2,
    added_messages_outgoing hl id hid hout.1, added_messages_outgoing hl id hid hout.2]
  split
  · rw [List.filter_append, List.map_append]
  · rfl

theorem added_clientSave (hw : Savable clock w) (hl : Loads w load) (host : ByteOrder) {id : Bytes}
    {ctx : Context} (hctx : session w.broker id = some ctx) (hclean : ctx.cleanStart = false) :
    (persistClientSave host w).flatMap (added load id) =
      ((ctx.msgsOut.inflight ++ ctx.msgsOut.queued).filter (inFile w.broker.db)).map content := by
  have hfst := map_fst_clientChunks host w.clients PClient.zero
  have hsum : (persistClientSave host w).flatMap (added load id) =
      ((clientChunks host PClient.zero w.clients).map (·.1)).flatMap fun c =>
        if c.id = id then ((c.context.msgsOut.inflight ++ c.context.msgsOut.queued).filter
          (inFile w.broker.db)).map content else [] := by
    rw [persistClientSave, List.flatMap_assoc, List.flatMap_map]
    exact List.flatMap_congr fun p hp => added_client hw hl id (fst_mem_clients hp) p.2
  -- the one client with this id
  obtain ⟨cid, hcid, hget⟩ := Option.bind_eq_some_iff.mp hctx
  obtain ⟨ctx', hget', hname⟩ := hw.byId id cid hcid
  obtain rfl : ctx' = ctx := Option.some.inj (hget'.symm.trans hget)
  have hid : Client.id ⟨ctx', w.logins cid⟩ = id := by rw [Client.id, hname, Option.getD_some]
  have hclient : ⟨ctx', w.logins cid⟩ ∈ w.clients :=
    List.mem_filterMap.mpr ⟨⟨id, cid⟩, (Heap.mem_entries_iff _ _ _).mpr hcid, by rw [hget]; rfl⟩
  have hlen : UInt16.ofNat (Client.id ⟨ctx', w.logins cid⟩).length ≠ 0 := by
    obtain ⟨hne, hle⟩ := hw.client_id hclient
    intro hz
    have hz' := congrArg UInt16.toNat hz
    rw [toNat_ofNat16 hle] at hz'
    exact hne (List.length_eq_zero_iff.mp hz')
  rw [hsum, hfst, flatMap_of_key Client.id (a := ⟨ctx', w.logins cid⟩), if_pos hid]
  · exact hw.nodup_clients.sublist (List.filter_sublist.map _)
  · exact List.mem_filter.mpr ⟨hclient, decide_eq_true ⟨hclean, hlen⟩⟩
  · intro c _ hne
    rw [if_neg fun h => hne (h.trans hid.symm)]

/-! ## The whole file -/

theorem mem_persistClientSave {host : ByteOrder} {chunk : Chunk}
    (h : chunk ∈ persistClientSave host w) :
    (∃ p ∈ clientChunks host PClient.zero w.clients, chunk = .client p.2) ∨
      ∃ c ∈ w.clients, ∃ msg ∈ c.context.msgsIn.inflight ++ c.context.msgsIn.queued ++
        (c.context.msgsOut.inflight ++ c.context.msgsOut.queued),
        chunk = .clientMsg (clientMsgChunk c.id msg) := by
  obtain ⟨p, hp, h⟩ := List.mem_flatMap.mp h
  rcases List.mem_cons.mp h with rfl | h
  · exact .inl ⟨p, hp, rfl⟩
  · have hqueue : ∀ queue, chunk ∈ persistClientMessagesSave w.broker.db p.1.id queue →
        ∃ msg ∈ queue, chunk = .clientMsg (clientMsgChunk p.1.id msg) := by
      intro queue hmem
      obtain ⟨msg, hmsg, rfl⟩ := List.mem_map.mp hmem
      exact ⟨msg, List.mem_of_mem_filter hmsg, rfl⟩
    simp only [List.mem_append, or_assoc] at h ⊢
    refine .inr ⟨p.1, fst_mem_clients hp, ?_⟩
    rcases h with h | h | h | h <;> obtain ⟨msg, hmsg, rfl⟩ := hqueue _ h
    · exact ⟨msg, .inl hmsg, rfl⟩
    · exact ⟨msg, .inr (.inl hmsg), rfl⟩
    · exact ⟨msg, .inr (.inr (.inl hmsg)), rfl⟩
    · exact ⟨msg, .inr (.inr (.inr hmsg)), rfl⟩

theorem Savable.readable (hw : Savable clock w) (host : ByteOrder) (shutdown : Bool) :
    ∀ chunk ∈ backupChunks host w shutdown, chunk.Readable := by
  intro chunk h
  rcases List.mem_cons.mp h with rfl | h
  · trivial
  · simp only [List.mem_append, or_assoc] at h
    rcases h with h | h | h | h
    · rw [persistMessageStoreSave_eq] at h
      obtain ⟨s, hs, rfl⟩ := List.mem_map.mp h
      exact msgStoreChunk_readable (hw.keepable hs) _
    · rcases mem_persistClientSave h with ⟨p, hp, rfl⟩ | ⟨c, hc, msg, hmsg, rfl⟩
      · exact idLen_clientChunks host w.clients PClient.zero p hp
      · obtain ⟨cid, -, hctx, -⟩ := mem_clients hw hc
        rcases List.mem_append.mp hmsg with hmsg | hmsg
        · exact (hw.incoming cid c.context hctx msg hmsg).properties
        · exact (hw.outgoing cid c.context hctx msg hmsg).properties
    · obtain ⟨e, -, rfl⟩ := mem_persistSubsSaveAll hw.tree h
      trivial
    · obtain ⟨node, h, stored, -, -, rfl⟩ := mem_persistRetainSaveAll h
      trivial

theorem Savable.restorable_sub (hw : Savable clock w) {chunk : Chunk}
    (h : chunk ∈ persistSubsSaveAll w.broker) : Restorable load chunk := by
  obtain ⟨e, he, rfl⟩ := mem_persistSubsSaveAll hw.tree h
  have hid : e.id ≠ [] ∧ e.id.length ≤ 65535 := by
    obtain ⟨ctx, hctx, hid⟩ := Option.bind_eq_some_iff.mp he.saved
    split at hid
    · exact hw.ids e.leaf.context ctx e.id hctx hid
    · cases hid
  exact ⟨e.id, e.sub, tokens e.sub, loaded_id hid, loaded_id he.sub_length, he.sub_length.2,
    he.tokenise⟩

theorem Savable.restorable_retain (hw : Savable clock w) (hl : Loads w load) {chunk : Chunk}
    (h : chunk ∈ persistRetainSaveAll w.broker) : Restorable load chunk := by
  obtain ⟨node, hier, stored, hnode, hstored, rfl⟩ := mem_persistRetainSaveAll h
  obtain ⟨⟨e, hget, rfl⟩, htok⟩ := hw.retained node hier stored hnode hstored
  intro store hload
  -- the id is that of a store in the file
  by_cases hfile : ∀ s ∈ savedStores w, UInt64.ofNat s.addr ≠ UInt64.ofNat e.store.addr
  · rw [hl.other _ hfile] at hload
    cases hload
  · push Not at hfile
    obtain ⟨s, hs, he⟩ := hfile
    obtain ⟨s', hs', htopic, -⟩ := hl.found s hs
    have haddr := addr_inj (hw.keepable hs) (hw.stores _ e hget).2 he
    obtain ⟨addr, e', hget', rfl, -⟩ := mem_savedStores.mp hs
    rw [← (hw.stores addr e' hget').1, haddr, hget] at hget'
    cases hget'
    rw [hs'] at hload
    cases hload
    rw [htopic]
    exact htok

/-- **What is restored.** -/
theorem restore_backup (hw : Savable clock w) (host : ByteOrder) (listeners : Listeners)
    (config : Config) (shutdown : Bool) : ∃ file w',
      persistBackup host w shutdown = .ok file ∧
      persistRestore host listeners file (World.dbOpen config clock) = .ok w' ∧
      Tidy w'.broker ∧ ∀ id ctx, session w.broker id = some ctx → ctx.cleanStart = false →
        (contents w'.broker id).Perm
          (((ctx.msgsOut.inflight ++ ctx.msgsOut.queued).filter (inFile w.broker.db)).map
            content) := by
  obtain ⟨file, hfile, hrestore⟩ := @persistRestore_backup host listeners w shutdown
    (hw.readable host shutdown)
  have htidy := tidy_dbOpen config clock
  -- the configuration
  obtain ⟨r₀, hr₀, hsame₀, hclock₀, hload₀⟩ : ∃ r₀ : Restoring,
      restoreChunk listeners (.cfg
        { lastDbId := UInt64.ofNat w.broker.db.lastDbId, shutdown := shutdown.toUInt8
          dbidSize := 8, padding := 0, padding' := 0 }) ⟨World.dbOpen config clock, ∅⟩ = .ok r₀ ∧
      SameClients (State.dbOpen config clock) r₀.world.broker ∧
      r₀.world.broker.db.clock = clock ∧ r₀.load = ∅ :=
    ⟨_, rfl, ⟨rfl, rfl, rfl, rfl⟩, rfl, rfl⟩
  -- the stores
  obtain ⟨r₁, hr₁, hsame₁, hfound, hother⟩ := @restore_stores listeners clock w.origins
    (savedStores w) r₀ hclock₀ (fun s hs => hw.keepable hs) hw.nodup_savedStores
  have hl : Loads w r₁.load := ⟨hfound, fun k hk => by rw [hother k hk, hload₀]; rfl⟩
  have hsame := hsame₀.trans hsame₁
  -- the clients, the subscriptions and the retained messages
  have hrest : ∀ chunk ∈ persistClientSave host w ++ persistSubsSaveAll w.broker ++
      persistRetainSaveAll w.broker, Restorable r₁.load chunk := by
    intro chunk h
    simp only [List.mem_append, or_assoc] at h
    rcases h with h | h | h
    · rcases mem_persistClientSave h with ⟨p, -, rfl⟩ | ⟨c, -, msg, -, rfl⟩
      · trivial
      · trivial
    · exact hw.restorable_sub h
    · exact hw.restorable_retain hl h
  obtain ⟨r', hr', htidy', hcontents⟩ := @restore_chunks listeners _ r₁ (hsame.tidy htidy) hrest
  refine ⟨file, r'.world, hfile, ?_, htidy', fun id ctx hctx hclean => ?_⟩
  · have hfold : (backupChunks host w shutdown).foldlM
        (fun r chunk => restoreChunk listeners chunk r) ⟨World.dbOpen config clock, ∅⟩ = .ok r' := by
      rw [backupChunks, List.foldlM_cons, hr₀, persistMessageStoreSave_eq, List.append_assoc,
        List.append_assoc]
      show List.foldlM _ r₀ _ = _
      rw [List.foldlM_append, hr₁, ← List.append_assoc]
      exact hr'
    rw [hrestore, hfold]
    rfl
  · have hnone : ∀ chunk ∈ persistSubsSaveAll w.broker ++ persistRetainSaveAll w.broker,
        added r₁.load id chunk = [] := by
      intro chunk h
      rcases List.mem_append.mp h with h | h
      · obtain ⟨e, -, rfl⟩ := mem_persistSubsSaveAll hw.tree h
        rfl
      · obtain ⟨node, h, stored, -, -, rfl⟩ := mem_persistRetainSaveAll h
        rfl
    refine (hcontents id).trans (List.Perm.of_eq ?_)
    rw [hsame.contents, List.append_assoc, List.flatMap_append, added_clientSave hw hl host hctx hclean,
      List.flatMap_eq_nil_iff.mpr hnone, List.append_nil]
    rfl

/-! ## What is left out -/

/-- The message is not one of `$SYS`. -/
def Content.plain (m : Content) : Bool := !isSys m.topic

/-- A client whose session outlives its connection. -/
structure Durable (b : State) (id : Bytes) (c : CtxId) (ctx : Context) : Prop where
  byId : b.contextsById.get id = some c
  context : b.contexts.get c = some ctx
  cleanStart : ctx.cleanStart = false

/-- The durable clients of `w` have their outgoing messages and their shared subscriptions in
`w'`. -/
structure SessionsKept (w w' : World) : Prop where
  messages : ∀ id c ctx, Durable w.broker id c ctx →
    ((contents w'.broker id).filter Content.plain).Perm
      ((contents w.broker id).filter Content.plain)
  shared : ∀ id c ctx, Durable w.broker id c ctx → ∀ p name,
    ∀ leaf ∈ w.broker.subs.tree.leaves p (some name), leaf.context = c →
      ∃ c', w'.broker.contextsById.get id = some c' ∧
        ∃ leaf' ∈ w'.broker.subs.tree.leaves p (some name),
          leaf'.context = c' ∧ leaf'.qos = leaf.qos ∧ leaf'.identifier = leaf.identifier

/-- No durable client has a message in `msgs_out.storage` or a shared subscription. -/
def NothingLeftOut (w : World) : Prop :=
  ∀ id c ctx, Durable w.broker id c ctx →
    (∀ msg ∈ ctx.msgsOut.storage, isSys msg.store.topic = true) ∧
      ∀ p name, ∀ leaf ∈ w.broker.subs.tree.leaves p (some name), leaf.context ≠ c

theorem Durable.session {b : State} {id : Bytes} {c : CtxId} {ctx : Context}
    (h : Durable b id c ctx) : Persist.session b id = some ctx := by
  rw [Persist.session, h.byId]
  exact h.context

/-- Only `$SYS` messages are left out of the lists that are saved. -/
theorem plain_inFile {msgs : List ClientMsg} (hm : ∀ msg ∈ msgs, Referring w .mdOut msg) :
    ((msgs.filter (inFile w.broker.db)).map content).filter Content.plain =
      (msgs.map content).filter Content.plain := by
  rw [List.filter_map, List.filter_map, List.filter_filter]
  congr 1
  refine List.filter_congr fun msg hmem => ?_
  obtain ⟨e, hget, hstore, -⟩ := (hm msg hmem).store
  rw [inFile, hget]
  show (!isSys msg.store.topic && !unsaved e) = !isSys msg.store.topic
  unfold unsaved
  rw [hstore]
  cases isSys msg.store.topic <;> rfl

theorem perm_append_left_iff {α : Type} {l l' : List α} : l.Perm (l ++ l') ↔ l' = [] := by
  constructor
  · intro h
    have hlen := h.length_eq
    rw [List.length_append] at hlen
    exact List.length_eq_zero_iff.mp (by omega)
  · rintro rfl
    rw [List.append_nil]

theorem sessionsKept_of_restored {w' : World} (hw : Savable clock w) (htidy : Tidy w'.broker)
    (hcontents : ∀ id ctx, session w.broker id = some ctx → ctx.cleanStart = false →
      (contents w'.broker id).Perm (((ctx.msgsOut.inflight ++ ctx.msgsOut.queued).filter
        (inFile w.broker.db)).map content)) :
    SessionsKept w w' ↔ NothingLeftOut w := by
  have hmessages : ∀ id c ctx, Durable w.broker id c ctx →
      (((contents w'.broker id).filter Content.plain).Perm
        ((contents w.broker id).filter Content.plain) ↔
        ∀ msg ∈ ctx.msgsOut.storage, isSys msg.store.topic = true) := by
    intro id c ctx h
    have hperm := (hcontents id ctx h.session h.cleanStart).filter Content.plain
    rw [plain_inFile (hw.outgoing c ctx h.context)] at hperm
    have hall : (contents w.broker id).filter Content.plain =
        ((ctx.msgsOut.inflight ++ ctx.msgsOut.queued).map content).filter Content.plain ++
          (ctx.msgsOut.storage.map content).filter Content.plain := by
      rw [contents, h.session, ← List.filter_append, ← List.map_append]
      rfl
    rw [hall, hperm.congr_left, perm_append_left_iff, List.filter_eq_nil_iff, List.forall_mem_map]
    refine forall₂_congr fun msg _ => ?_
    show ¬ (!isSys msg.store.topic) = true ↔ _
    cases isSys msg.store.topic <;> simp
  constructor
  · intro hkept id c ctx h
    refine ⟨(hmessages id c ctx h).mp (hkept.messages id c ctx h), fun p name leaf hleaf hc => ?_⟩
    obtain ⟨c', -, leaf', hleaf', -⟩ := hkept.shared id c ctx h p name leaf hleaf hc
    rw [htidy.unshared] at hleaf'
    cases hleaf'
  · intro hnone
    refine ⟨fun id c ctx h => (hmessages id c ctx h).mpr (hnone id c ctx h).1,
      fun id c ctx h p name leaf hleaf hc => ?_⟩
    exact absurd hc ((hnone id c ctx h).2 p name leaf hleaf)

/-- **The sessions come through the file exactly if** no durable client has a message in
`msgs_out.storage` or a shared subscription. -/
theorem sessions_kept_iff (hw : Savable clock w) (host : ByteOrder) (listeners : Listeners)
    (config : Config) (shutdown : Bool) :
    (∃ file w', persistBackup host w shutdown = .ok file ∧
      persistRestore host listeners file (World.dbOpen config clock) = .ok w' ∧
      SessionsKept w w') ↔ NothingLeftOut w := by
  obtain ⟨file, w', hfile, hw', htidy, hcontents⟩ := restore_backup hw host listeners config shutdown
  have hiff := sessionsKept_of_restored hw htidy hcontents
  constructor
  · rintro ⟨file', w'', hfile', hw'', hkept⟩
    rw [hfile] at hfile'
    cases hfile'
    rw [hw'] at hw''
    cases hw''
    exact hiff.mp hkept
  · exact fun h => ⟨file, w', hfile, hw', hiff.mpr h⟩

/-- A message `hi` on the topic `t`. -/
def storeHi : MsgStore :=
  { addr := 1, origin := .moClient, sourceId := ascii "p", sourceMid := 1, topic := ascii "t"
    payload := ascii "hi", properties := [], messageExpiryTime := 0, qos := .q1, retain := false }

/-- The message for a client. -/
def msgHi (mid : UInt16) (state : MsgState) : ClientMsg :=
  { addr := mid.toNat, store := storeHi, properties := [], timestamp := 0, mid, qos := .q1
    retain := false, direction := .mdOut, state, dup := false, storageTime := 0 }

def clockZero : Nat → Reading := fun _ => ⟨0, 0, 0⟩

/-- A broker with one durable client, which has messages in two of its lists. -/
def World.one (queued storage : List ClientMsg) : World :=
  let b := State.dbOpen Config.init clockZero
  { broker := { b with
      db := { b.db with msgStore := Heap.set ∅ 1 ⟨storeHi, 2, []⟩, lastDbId := 1 }
      contexts := Heap.set ∅ 0 { Context.init Config.init none with
        id := some (ascii "c"), cleanStart := false
        msgsOut := { MsgData.empty 20 with queued, storage } }
      contextsById := Heap.set ∅ (ascii "c") 0
      nextContext := 1 }
    logins := fun _ => ⟨none, none⟩
    origins := fun _ => ⟨none, none⟩ }

theorem savable_one {queued storage : List ClientMsg}
    (hq : ∀ msg ∈ queued, msg.direction = .mdOut ∧ msg.store = storeHi ∧ msg.properties = []) :
    Savable clockZero (World.one queued storage) where
  byId id c h := by
    obtain ⟨rfl, rfl⟩ := Heap.get_set_empty h
    exact ⟨_, Heap.get_set_self _ _ _, rfl⟩
  ids c ctx id h hid := by
    obtain ⟨rfl, rfl⟩ := Heap.get_set_empty h
    obtain rfl : ascii "c" = id := Option.some.inj hid
    exact ⟨by decide, by decide⟩
  incoming c ctx h msg hmsg := by
    obtain ⟨rfl, rfl⟩ := Heap.get_set_empty h
    cases hmsg
  outgoing c ctx h msg hmsg := by
    obtain ⟨rfl, rfl⟩ := Heap.get_set_empty h
    obtain ⟨hdir, hstore, hprops⟩ := hq msg hmsg
    refine ⟨hdir, ⟨⟨storeHi, 2, []⟩, ?_, hstore.symm, by decide⟩, ?_⟩
    · rw [hstore]
      exact Heap.get_set_self _ _ _
    · rw [hprops]
      exact ⟨fun _ h => (nomatch h), rfl, by decide⟩
  stores addr e h := by
    obtain ⟨rfl, rfl⟩ := Heap.get_set_empty h
    exact ⟨rfl, by decide, by decide, by decide, by decide, by decide,
      ⟨fun _ h => (nomatch h), rfl, by decide⟩, by decide, fun h => absurd h (by decide)⟩
  tree := named_init
  retained node h stored hnode hstored := by
    have hempty : ∀ e ∈ retainInit.entries, e.2.retained = none := by decide
    have hnone := hempty ⟨node, h⟩ ((Heap.mem_entries_iff _ _ _).mpr hnode)
    rw [hnone] at hstored
    cases hstored

/-- A client has its queued message back. -/
theorem sessions_kept_queued :
    let w := World.one [msgHi 1 .queued] []
    ∃ file w', persistBackup .little w true = .ok file ∧
      persistRestore .little ⟨false, [1883]⟩ file (World.dbOpen Config.init clockZero) = .ok w' ∧
      SessionsKept w w' := by
  intro w
  have hw : Savable clockZero w := savable_one (by decide)
  refine (sessions_kept_iff hw .little ⟨false, [1883]⟩ Config.init true).mpr ?_
  intro id c ctx h
  obtain ⟨rfl, rfl⟩ := Heap.get_set_empty h.context
  refine ⟨fun msg hmsg => (nomatch hmsg), fun p name leaf hleaf => ?_⟩
  rw [show w.broker.subs.tree = SubTree.dbOpen from rfl, SubTree.dbOpen_spec.2.2] at hleaf
  cases hleaf

/-- **A message in `msgs_out.storage` is lost.** -/
theorem stored_message_lost :
    let w := World.one [msgHi 1 .queued] [msgHi 2 .storage]
    ¬ ∃ file w', persistBackup .little w true = .ok file ∧
      persistRestore .little ⟨false, [1883]⟩ file (World.dbOpen Config.init clockZero) = .ok w' ∧
      SessionsKept w w' := by
  intro w
  have hw : Savable clockZero w := savable_one (by decide)
  obtain ⟨file, w', hfile, hrestore, htidy, hcontents⟩ :=
    restore_backup hw .little ⟨false, [1883]⟩ Config.init true
  rintro ⟨file', w'', hfile', hrestore', hkept⟩
  rw [hfile] at hfile'
  cases hfile'
  rw [hrestore] at hrestore'
  cases hrestore'
  have hnone := (sessionsKept_of_restored hw htidy hcontents).mp hkept
  have hstored := (hnone (ascii "c") 0 _
    ⟨Heap.get_set_self _ _ _, Heap.get_set_self _ _ _, rfl⟩).1 (msgHi 2 .storage)
    (List.mem_singleton.mpr rfl)
  exact absurd hstored (by decide)

end Saved

end AdaptiveMqtt.Persist
