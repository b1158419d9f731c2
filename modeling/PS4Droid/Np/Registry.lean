import PS4Droid.Np.Established

/-!
# The registry of connections

Every entry of `g_npid_to_conn` names its connection, and a peer has one live connection in a
context, in every run in which the names of peers are zero after their text.
-/

namespace PS4Droid.Np

/-- Sixteen bytes with a text and zeros. -/
def padText (text : List UInt8) : Vector UInt8 16 := Vector.ofFn fun i => text.getD i 0

/-- An id that is given by the text of its online id. -/
def NpId.ofText (text : List UInt8) : NpId :=
  { NpId.zero with handle := { OnlineId.zero with data := padText text } }

def NpId.Canonical (npid : NpId) : Prop := npid = NpId.ofText npid.handle.text

instance (npid : NpId) : Decidable npid.Canonical :=
  inferInstanceAs (Decidable (npid = NpId.ofText npid.handle.text))

theorem NpId.zero_canonical : NpId.zero.Canonical := by decide

namespace ConnectionInfo

def IsLive (c : ConnectionInfo) : Prop := c.state ≠ .inactive ∧ c.deadFired = false

end ConnectionInfo

/-- The ids of new connections are canonical, and a handshake starts on no inactive connection that
is not registered. -/
def CanonicalIds (s : State) (_held : List Task) (input : Input) : Task → Prop
  | .activateConnection ctxId peer =>
    ∀ ctx, activationContext s input ctxId peer = some (true, ctx) → peer.Canonical
  | .handleControlPacket _ _ packet =>
    packet.kind = .activationRequest → input.connection = 0 → input.context ≠ 0 →
      (answererConnection 0 0 0 packet.onlineIdFrom).npid.Canonical
  | .startHandshakeInitiator id | .establishConnection id _ =>
    ∀ c, s.connections id = some c → c.state = .inactive → c.deadFired = false →
      s.npidToConn (c.ctxId, c.npid) = some id
  | _ => True

/-- The entries of the registry and the live connections. -/
structure Registry (s : State) : Prop where
  entries : ∀ key id, s.npidToConn key = some id →
    ∃ c, s.connections id = some c ∧ c.ctxId = key.1 ∧ c.npid = key.2
  handle : ∀ id c, s.connections id = some c → c.onlineId = c.npid.handle
  canonical : ∀ id c, s.connections id = some c → c.npid.Canonical
  live : ∀ id c, s.connections id = some c → c.IsLive → s.npidToConn (c.ctxId, c.npid) = some id

namespace Registry

variable {s s' : State}

theorem of_keys_eq (h : Registry s) (hkeys : s'.npidToConn = s.npidToConn)
    (hkept : ∀ id c, s.connections id = some c → ∃ c', s'.connections id = some c' ∧
      c.SameRecord c' ∧ (c'.IsLive → c.IsLive ∨ s.npidToConn (c.ctxId, c.npid) = some id))
    (hnew : ∀ id c', s'.connections id = some c' → s.connections id = none →
      c'.onlineId = c'.npid.handle ∧ c'.npid.Canonical ∧ ¬ c'.IsLive) : Registry s' := by
  -- A record after the step is a new one, or has the fields of the one before.
  have hback : ∀ id c', s'.connections id = some c' → s.connections id = none ∨
      ∃ c, s.connections id = some c ∧ c.SameRecord c' ∧
        (c'.IsLive → c.IsLive ∨ s.npidToConn (c.ctxId, c.npid) = some id) := by
    intro id c' hc'
    cases hc : s.connections id with
    | none => exact .inl rfl
    | some c =>
      obtain ⟨c₁, hc₁, hsame, hlive⟩ := hkept id c hc
      obtain rfl := Option.some.inj (hc₁.symm.trans hc')
      exact .inr ⟨c, rfl, hsame, hlive⟩
  refine ⟨?_, ?_, ?_, ?_⟩
  · intro key id hkey
    rw [hkeys] at hkey
    obtain ⟨c, hc, hctx, hnpid⟩ := h.entries key id hkey
    obtain ⟨c', hc', hsame, -⟩ := hkept id c hc
    exact ⟨c', hc', hsame.ctxId.trans hctx, hsame.npid.trans hnpid⟩
  · intro id c' hc'
    rcases hback id c' hc' with hnone | ⟨c, hc, hsame, -⟩
    · exact (hnew id c' hc' hnone).1
    · rw [hsame.onlineId, hsame.npid]
      exact h.handle id c hc
  · intro id c' hc'
    rcases hback id c' hc' with hnone | ⟨c, hc, hsame, -⟩
    · exact (hnew id c' hc' hnone).2.1
    · rw [hsame.npid]
      exact h.canonical id c hc
  · intro id c' hc' hlive'
    rcases hback id c' hc' with hnone | ⟨c, hc, hsame, hlive⟩
    · exact absurd hlive' (hnew id c' hc' hnone).2.2
    · rw [hkeys, hsame.ctxId, hsame.npid]
      exact (hlive hlive').elim (h.live id c hc) fun hkey => hkey

theorem of_eq (h : Registry s) (hconnections : s'.connections = s.connections)
    (hkeys : s'.npidToConn = s.npidToConn) : Registry s' := by
  refine h.of_keys_eq hkeys ?_ ?_
  · intro id c hc
    exact ⟨c, by rw [hconnections, hc], ⟨rfl, rfl, rfl, rfl, rfl⟩, .inl⟩
  · intro id c' hc' hnone
    rw [hconnections, hnone] at hc'
    cases hc'

variable {key : ℤ × NpId} {id ctxId : ℤ} {c c' : ConnectionInfo} {input : Input} {peer : NpId}
  {fromAddr fromPort : ℕ} {packet : Control}

theorem key_eq (h : Registry s)
    (hkey : s.npidToConn key = some id) (hc : s.connections id = some c) :
    key = (c.ctxId, c.npid) := by
  obtain ⟨c', hc', hctx, hnpid⟩ := h.entries key id hkey
  obtain rfl := Option.some.inj (hc.symm.trans hc')
  rw [hctx, hnpid]

theorem removeConnectionLocked (h : Registry s) (id : ℤ) :
    Registry (s.removeConnectionLocked id) := by
  cases hc : s.connections id with
  | none =>
    rw [State.removeConnectionLocked, hc]
    exact h
  | some c =>
    have hconnections := State.removeConnectionLocked_connections (s := s) id
    have hkeys : (s.removeConnectionLocked id).npidToConn =
        if s.npidToConn (c.ctxId, c.npid) = some id then
          Function.update s.npidToConn (c.ctxId, c.npid) none
        else s.npidToConn := by
      rw [State.removeConnectionLocked, hc]
    have hother : ∀ id' c', (s.removeConnectionLocked id).connections id' = some c' →
        id' ≠ id ∧ s.connections id' = some c' := by
      intro id' c' hc'
      rw [hconnections] at hc'
      by_cases hid : id' = id
      · rw [hid, Function.update_self] at hc'
        cases hc'
      · rw [Function.update_of_ne hid] at hc'
        exact ⟨hid, hc'⟩
    refine ⟨?_, ?_, ?_, ?_⟩
    · intro key id' hkey
      have hold : s.npidToConn key = some id' ∧ id' ≠ id := by
        rw [hkeys] at hkey
        split at hkey
        · by_cases hsame : key = (c.ctxId, c.npid)
          · rw [hsame, Function.update_self] at hkey
            cases hkey
          · rw [Function.update_of_ne hsame] at hkey
            refine ⟨hkey, ?_⟩
            rintro rfl
            exact hsame (h.key_eq hkey hc)
        · rename_i hpoints
          refine ⟨hkey, ?_⟩
          rintro rfl
          exact hpoints (h.key_eq hkey hc ▸ hkey)
      obtain ⟨c', hc', hrest⟩ := h.entries key id' hold.1
      exact ⟨c', by rw [hconnections, Function.update_of_ne hold.2, hc'], hrest⟩
    · intro id' c' hc'
      exact h.handle id' c' (hother id' c' hc').2
    · intro id' c' hc'
      exact h.canonical id' c' (hother id' c' hc').2
    · intro id' c' hc' hlive
      obtain ⟨hid, hold⟩ := hother id' c' hc'
      have hkey := h.live id' c' hold hlive
      rw [hkeys]
      split
      · rename_i hpoints
        rw [Function.update_of_ne]
        · exact hkey
        · intro hsame
          rw [hsame, hpoints] at hkey
          exact hid (Option.some.inj hkey).symm
      · exact hkey

/-- A record is created, with an entry that no live connection has. -/
theorem create (h : Registry s) (id : ℤ) (c : ConnectionInfo) (hfree : s.connections id = none)
    (hunused : ∀ id' c', s.npidToConn (c.ctxId, c.npid) = some id' → s.connections id' = some c' →
      ¬ c'.IsLive)
    (hhandle : c.onlineId = c.npid.handle) (hcanonical : c.npid.Canonical) :
    Registry (s.create id c (some (c.ctxId, c.npid))) := by
  have hconnections := s.create_connections id c (some (c.ctxId, c.npid))
  have hentries : (s.create id c (some (c.ctxId, c.npid))).npidToConn =
      Function.update s.npidToConn (c.ctxId, c.npid) (some id) := rfl
  have hrecord : ∀ id' c', (s.create id c (some (c.ctxId, c.npid))).connections id' = some c' →
      id' = id ∧ c' = c ∨ id' ≠ id ∧ s.connections id' = some c' := by
    intro id' c' hc'
    rw [hconnections] at hc'
    by_cases hid : id' = id
    · rw [hid, Function.update_self] at hc'
      exact .inl ⟨hid, (Option.some.inj hc').symm⟩
    · rw [Function.update_of_ne hid] at hc'
      exact .inr ⟨hid, hc'⟩
  refine ⟨?_, ?_, ?_, ?_⟩
  · intro key id' hkey
    by_cases hkeys : key = (c.ctxId, c.npid)
    · rw [hentries, hkeys, Function.update_self] at hkey
      obtain rfl := Option.some.inj hkey
      exact ⟨c, by rw [hconnections, Function.update_self], by rw [hkeys], by rw [hkeys]⟩
    · rw [hentries, Function.update_of_ne hkeys] at hkey
      obtain ⟨c', hc', hrest⟩ := h.entries key id' hkey
      refine ⟨c', ?_, hrest⟩
      rw [hconnections, Function.update_of_ne, hc']
      rintro rfl
      cases hfree.symm.trans hc'
  · intro id' c' hc'
    rcases hrecord id' c' hc' with ⟨-, rfl⟩ | ⟨-, hold⟩
    · exact hhandle
    · exact h.handle id' c' hold
  · intro id' c' hc'
    rcases hrecord id' c' hc' with ⟨-, rfl⟩ | ⟨-, hold⟩
    · exact hcanonical
    · exact h.canonical id' c' hold
  · intro id' c' hc' hlive
    rcases hrecord id' c' hc' with ⟨rfl, rfl⟩ | ⟨-, hold⟩
    · rw [hentries, Function.update_self]
    · have hkey := h.live id' c' hold hlive
      rw [hentries, Function.update_of_ne, hkey]
      intro hkeys
      rw [hkeys] at hkey
      exact hunused id' c' hkey hold hlive

theorem removeContext (h : Registry s) (ctxId : ℤ) : Registry (removeContext s ctxId) := by
  have hrecord : ∀ id c, (Np.removeContext s ctxId).connections id = some c ↔
      s.connections id = some c ∧ c.ctxId ≠ ctxId := by
    intro id c
    cases hc : s.connections id with
    | none => simp [Np.removeContext, hc]
    | some c' =>
      by_cases hctx : c'.ctxId = ctxId
      · simp only [Np.removeContext, hc, Option.bind_some, hctx, if_true, Option.some.injEq]
        constructor
        · intro hnone
          cases hnone
        · rintro ⟨rfl, hne⟩
          exact absurd hctx hne
      · simp only [Np.removeContext, hc, Option.bind_some, hctx, if_false, Option.some.injEq]
        constructor
        · rintro rfl
          exact ⟨rfl, hctx⟩
        · exact And.left
  have hentry : ∀ key id c, s.npidToConn key = some id → s.connections id = some c →
      (Np.removeContext s ctxId).npidToConn key = if c.ctxId = ctxId then none else some id := by
    intro key id c hkey hc
    obtain rfl := h.key_eq hkey hc
    simp [Np.removeContext, hkey, hc]
  refine ⟨?_, ?_, ?_, ?_⟩
  · intro key id hkey
    cases hold : s.npidToConn key with
    | none => simp [Np.removeContext, hold] at hkey
    | some id' =>
      obtain ⟨c, hc, hrest⟩ := h.entries key id' hold
      rw [hentry key id' c hold hc] at hkey
      split at hkey
      · cases hkey
      · obtain rfl := Option.some.inj hkey
        exact ⟨c, (hrecord id' c).mpr ⟨hc, ‹_›⟩, hrest⟩
  · exact fun id c hc => h.handle id c ((hrecord id c).mp hc).1
  · exact fun id c hc => h.canonical id c ((hrecord id c).mp hc).1
  · intro id c hc hlive
    obtain ⟨hold, hctx⟩ := (hrecord id c).mp hc
    rw [hentry _ id c (h.live id c hold hlive) hold, if_neg hctx]

theorem setConnection (h : Registry s) (hc : s.connections id = some c) (hsame : c.SameRecord c')
    (hlive : c'.IsLive → c.IsLive ∨ s.npidToConn (c.ctxId, c.npid) = some id) :
    Registry (s.setConnection id c') := by
  refine h.of_keys_eq rfl ?_ ?_
  · intro id' c₁ hc₁
    by_cases hid : id' = id
    · subst hid
      obtain rfl := Option.some.inj (hc.symm.trans hc₁)
      exact ⟨c', Function.update_self _ _ _, hsame, hlive⟩
    · exact ⟨c₁, (Function.update_of_ne hid _ _).trans hc₁, ⟨rfl, rfl, rfl, rfl, rfl⟩, .inl⟩
  · intro id' c₁ hc₁ hnone
    by_cases hid : id' = id
    · rw [hid, hc] at hnone
      cases hnone
    · rw [State.setConnection_connections, Function.update_of_ne hid, hnone] at hc₁
      cases hc₁

theorem onConnection (h : Registry s) {connId : ℤ} {f : ConnectionInfo → State × List Task}
    (hf : ∀ c, s.connections connId = some c → Registry (f c).1) :
    Registry (onConnection s connId f).1 := by
  rw [Np.onConnection]
  split
  · exact h
  · exact hf _ ‹_›

theorem activateNew (h : Registry s) (hcanonical : peer.Canonical)
    (hunused : ∀ id c, s.npidToConn (ctxId, peer) = some id → s.connections id = some c →
      ¬ c.IsLive) :
    Registry (activateNew s input ctxId peer) := by
  rw [Np.activateNew]
  split
  · obtain ⟨next, rfl⟩ := State.allocateConnectionId_none ‹_›
    exact h.of_eq rfl rfl
  · obtain ⟨⟨next, rfl⟩, hfree, -⟩ := State.allocateConnectionId_spec ‹_›
    have hseed : Registry { s with connectionIdSeed := next } := h.of_eq rfl rfl
    have hcreated :=
      hseed.create ‹ℤ› (activatedConnection ‹ℤ› ctxId s.lives peer s.calloutCtxActive) hfree hunused
      rfl hcanonical
    exact hcreated.of_eq rfl rfl

theorem removed_key (h : Registry s)
    (hkey : s.npidToConn key = some id) (hc : s.connections id = some c) :
    (s.removeConnectionLocked id).npidToConn key = none := by
  obtain rfl := h.key_eq hkey hc
  rw [State.removeConnectionLocked, hc]
  dsimp only
  rw [if_pos hkey, Function.update_self]

theorem activatePeer (h : Registry s)
    (hcanonical : peer.Canonical) : Registry (activatePeer s input ctxId peer).1 := by
  rw [Np.activatePeer]
  split
  · rename_i hnone
    refine h.activateNew hcanonical fun id c hkey => ?_
    cases hnone.symm.trans hkey
  rename_i connId hkey
  split
  · rename_i hnone
    refine h.activateNew hcanonical fun id c hkey' hc => ?_
    obtain rfl := Option.some.inj (hkey.symm.trans hkey')
    cases hnone.symm.trans hc
  rename_i c hc
  split
  · refine (h.removeConnectionLocked connId).activateNew hcanonical fun id c' hkey' => ?_
    cases (h.removed_key hkey hc).symm.trans hkey'
  · exact h.setConnection hc ⟨rfl, rfl, rfl, rfl, rfl⟩ .inl

theorem activateConnection (h : Registry s)
    (hcanonical : ∀ ctx, activationContext s input ctxId peer = some (true, ctx) → peer.Canonical) :
    Registry (activateConnection s input ctxId peer).1 := by
  rw [Np.activateConnection]
  split
  · exact h
  · rename_i hagreed
    have hcontexts (contexts : ℤ → Option Context) : Registry { s with contexts := contexts } :=
      h.of_eq rfl rfl
    dsimp only
    split
    · rename_i hgranted
      rw [hgranted] at hagreed
      exact (hcontexts _).activatePeer (hcanonical _ hagreed)
    · exact hcontexts _

theorem answerRequest (h : Registry s) (hnobody : ∀ id c, s.connections id = some c →
      ¬ c.matchesPeer (textOf packet.onlineIdFrom) = true)
    (hcanonical : input.context ≠ 0 →
      (answererConnection 0 0 0 packet.onlineIdFrom).npid.Canonical) :
    Registry (answerRequest s input fromAddr fromPort packet).1 := by
  rw [Np.answerRequest]
  split
  · exact h
  rename_i hcontext
  split
  · obtain ⟨next, rfl⟩ := State.allocateConnectionId_none ‹_›
    exact h.of_eq rfl rfl
  rename_i connId _ halloc
  obtain ⟨⟨next, rfl⟩, hfree, -⟩ := State.allocateConnectionId_spec halloc
  have hseed : Registry { s with connectionIdSeed := next } := h.of_eq rfl rfl
  have hcreated :=
    hseed.create connId (answererConnection connId input.context s.lives packet.onlineIdFrom)
    hfree ?_ rfl (hcanonical hcontext)
  · refine hcreated.setConnection (Function.update_self _ _ _)
      (ConnectionInfo.requested_sameRecord _ _ _ _ _) ?_
    intro hlive
    exact .inr (Function.update_self _ _ _)
  · -- A live connection under the key has the text of the packet, and would have been found.
    intro id c hkey hc hlive
    have hkey_eq := h.key_eq hkey hc
    have hnpid :
      c.npid = (answererConnection connId input.context s.lives packet.onlineIdFrom).npid :=
      (Prod.mk.inj hkey_eq).2.symm
    have hid : c.onlineId = { OnlineId.zero with data := packet.onlineIdFrom } := by
      rw [h.handle id c hc, hnpid]
      rfl
    refine hnobody id c hc ?_
    simp [ConnectionInfo.matchesPeer, hlive.1, hlive.2, hid, OnlineId.text]

theorem handleControlPacket (h : Registry s)
    (hfound : FindsPeer s (textOf packet.onlineIdFrom) input.connection)
    (hzero : s.connections 0 = none)
    (hcanonical : packet.kind = .activationRequest → input.connection = 0 → input.context ≠ 0 →
      (answererConnection 0 0 0 packet.onlineIdFrom).npid.Canonical) :
    Registry (handleControlPacket s input fromAddr fromPort packet).1 := by
  rw [Np.handleControlPacket]
  split
  · rename_i hkind
    split
    · rename_i hnone
      refine h.answerRequest ?_ (hcanonical hkind hnone)
      rcases hfound with ⟨c, hc, -⟩ | ⟨-, hnobody⟩
      · rw [hnone, hzero] at hc
        cases hc
      · exact hnobody
    · refine h.onConnection fun c hc => ?_
      obtain ⟨hstate, hdead⟩ := hfound.live hzero hc
      exact h.setConnection hc (c.requested_sameRecord _ _ _ _) fun _ => .inl ⟨hstate, hdead⟩
  · exact h.onConnection fun c hc => h.setConnection hc ⟨rfl, rfl, rfl, rfl, rfl⟩ .inl
  · exact h.onConnection fun c hc => h.setConnection hc ⟨rfl, rfl, rfl, rfl, rfl⟩ .inl
  · exact h.onConnection fun c hc => h
  · exact h

theorem activateConnectionA (h : Registry s) {accountId platformType : ℕ} :
    Registry (activateConnectionA s input ctxId accountId platformType) := by
  rw [Np.activateConnectionA]
  split
  · exact h
  dsimp only
  split
  · split
    · obtain ⟨next, rfl⟩ := State.allocateConnectionId_none ‹_›
      exact h.of_eq rfl rfl
    · rename_i connId _ halloc
      obtain ⟨⟨next, rfl⟩, hfree, -⟩ := State.allocateConnectionId_spec halloc
      refine h.of_keys_eq rfl ?_ ?_
      · intro id c hc
        have hid : id ≠ connId := by
          rintro rfl
          cases hfree.symm.trans hc
        exact ⟨c, (Function.update_of_ne hid _ _).trans hc, ⟨rfl, rfl, rfl, rfl, rfl⟩, .inl⟩
      · intro id c hc hnone
        rw [State.create_connections] at hc
        by_cases hid : id = connId
        · rw [hid, Function.update_self] at hc
          obtain rfl := Option.some.inj hc
          exact ⟨rfl, NpId.zero_canonical, fun hlive => hlive.1 rfl⟩
        · rw [Function.update_of_ne hid] at hc
          cases hnone.symm.trans hc
  · exact h.of_eq rfl rfl

theorem send (h : Registry s) (ci : ConnectionInfo) (datagram : Datagram) :
    Registry (s.send ci datagram) := by
  rw [State.send]
  split
  · exact h
  · exact h.of_eq rfl rfl

theorem stage (h : Registry s) (ctx : Context) (dispatch : QueuedDispatch) :
    Registry (s.stage ctx dispatch) := by
  rw [State.stage]
  split
  · exact h.of_eq rfl rfl
  · exact h

theorem dispatchConnectionEvent (h : Registry s) (id : ℤ) (event : Event)
    (error : Option CloseError) :
    Registry (dispatchConnectionEvent s id event error) := by
  rw [Np.dispatchConnectionEvent]
  split
  · exact h
  split
  · exact h
  split
  · exact h.stage _ _
  · exact h

theorem dispatchPeerActivatedEvent (h : Registry s) (id : ℤ) :
    Registry (dispatchPeerActivatedEvent s input id) := by
  rw [Np.dispatchPeerActivatedEvent]
  split
  · exact h
  refine List.foldlRecOn (motive := Registry) _ _ h ?_
  intro s' ih ctxId _
  split
  · exact ih
  split
  · exact ih.stage _ _
  · exact ih

theorem createContext (h : Registry s) {npid : NpId} {callback : Bool} {flags : ℕ} :
    Registry (createContext s input npid callback flags) := by
  rw [Np.createContext, State.allocateContextId]
  split
  · rename_i hfound
    split at hfound
    · rw [← (Prod.mk.inj hfound).2]
      exact h
    · cases hfound
  · rename_i hfound
    split at hfound
    · cases hfound
    · rw [← (Prod.mk.inj hfound).2]
      exact h.of_eq rfl rfl

theorem handleHandshakePacket (h : Registry s) {datagram : Datagram}
    (hfound : FindsPeer s (textOf datagram.packet.onlineIdFrom) input.connection)
    (hzero : s.connections 0 = none) :
    Registry (handleHandshakePacket s input fromAddr fromPort datagram).1 := by
  rw [Np.handleHandshakePacket]
  refine h.onConnection fun c hc => ?_
  have hlive := hfound.live hzero hc
  have hreceived := c.received_sameRecord input.nowUs
  dsimp only
  split
  · exact h.setConnection hc (hreceived.trans (ConnectionInfo.offered_sameRecord _ _ _ _ _))
      fun _ => .inl hlive
  · exact h.setConnection hc (hreceived.trans (ConnectionInfo.accepted_sameRecord _ _ _ _ _))
      fun _ => .inl hlive
  · exact h.setConnection hc (hreceived.trans (ConnectionInfo.checked_sameRecord _)) fun _ =>
      .inl hlive
  · exact h.setConnection hc hreceived fun _ => .inl hlive
  · exact h.setConnection hc hreceived fun _ => .inl hlive

theorem stepCallout (h : Registry s) : Registry (stepCallout s input id).1 := by
  rw [Np.stepCallout]
  refine h.onConnection fun c hc => ?_
  have hstep : Registry (s.setConnection id (c.stepFired s.calloutCtxActive input.nowUs)) := by
    refine h.setConnection hc (c.stepFired_sameRecord _ _) fun hlive => .inl ?_
    rw [ConnectionInfo.stepFired] at hlive
    split at hlive <;> exact hlive
  dsimp only
  split
  · exact hstep
  split
  · exact hstep.send _ _
  · exact hstep

/-- A handshake starts, or ends, on a connection that is live or registered. -/
theorem setConnection_of_start (h : Registry s)
    (hc : s.connections id = some c) (hsame : c.SameRecord c') (hdead : c'.deadFired = c.deadFired)
    (hok : ∀ c, s.connections id = some c → c.state = .inactive → c.deadFired = false →
      s.npidToConn (c.ctxId, c.npid) = some id) : Registry (s.setConnection id c') := by
  refine h.setConnection hc hsame fun hlive => ?_
  have halive : c.deadFired = false := hdead.symm.trans hlive.2
  by_cases hinactive : c.state = .inactive
  · exact .inr (hok c hc hinactive halive)
  · exact .inl ⟨hinactive, halive⟩

theorem exec (h : Registry s) {held : List Task} {task : Task}
    (hallowed : Allowed s input task) (hok : CanonicalIds s held input task) (hwf : s.WellFormed) :
    Registry (exec input task s).1 := by
  cases task with
  | createContext npid callback flags => exact h.createContext
  | activateConnection ctxId peer => exact h.activateConnection hok
  | activateConnectionA ctxId accountId platformType => exact h.activateConnectionA
  | deactivateConnection ctxId connId | terminateConnection ctxId connId =>
      exact h.onConnection fun c hc => h
  | deleteContext ctxId => exact h
  | handleHandshakePacket fromAddr fromPort datagram =>
      exact h.handleHandshakePacket hallowed hwf.zero
  | handleControlPacket fromAddr fromPort packet =>
      exact h.handleControlPacket hallowed.1 hwf.zero hok
  | timeoutCallout connId =>
    exact h.onConnection fun c hc => h.setConnection hc ⟨rfl, rfl, rfl, rfl, rfl⟩ .inl
  | stepCallout connId => exact h.stepCallout
  | processPendingActivations => exact h.of_eq rfl rfl
  | deactivateFaithful connId =>
    refine h.onConnection fun c hc => ?_
    split_ifs
    · exact h
    · exact h
    · exact h.setConnection hc ⟨rfl, rfl, rfl, rfl, rfl⟩ .inl
    · exact h
  | closeConnection connId error =>
    refine h.onConnection fun c hc => ?_
    split_ifs
    · exact h
    · exact h.setConnection hc ⟨rfl, rfl, rfl, rfl, rfl⟩ fun hlive => absurd rfl hlive.1
  | dispatchConnectionEvent connId life event error =>
      exact h.dispatchConnectionEvent connId event error
  | dispatchPeerActivatedEvent connId life => exact h.dispatchPeerActivatedEvent connId
  | removeConnection connId => exact h.removeConnectionLocked connId
  | establishConnection connId peerActivatedHint =>
    refine h.onConnection fun c hc =>
      h.setConnection_of_start hc (c.establish_sameRecord _ _ _) ?_ hok
    rw [ConnectionInfo.establish, ConnectionInfo.enterEstablished]
    split <;> rfl
  | startHandshakeInitiator connId =>
    rw [Np.exec, startHandshakeInitiator]
    dsimp only
    split
    · exact h
    · refine Registry.send ?_ _ _
      refine h.setConnection_of_start ‹_› (ConnectionInfo.startHandshake_sameRecord _ _) ?_ hok
      rw [ConnectionInfo.startHandshake, ConnectionInfo.keepTimeout_eq]
      rfl
  | sendHandshake connId datagram => exact h.onConnection fun c hc => h.send _ _
  | checkActivation activation => exact h.onConnection fun c hc => h
  | resolveActivation activation =>
    rw [Np.exec, resolveActivation]
    split
    · exact h
    split
    · exact h
    refine h.onConnection fun c hc => ?_
    split
    · exact h
    · exact h.setConnection hc ⟨rfl, rfl, rfl, rfl, rfl⟩ .inl
  | removeContext ctxId => exact h.removeContext ctxId

end Registry

section Runs

variable {seed : Fin 0x8000} {lastContext : Fin 9} {config : Sections.Config State Task}

theorem registry_of_reachable
    (h : signaling.Reachable CanonicalIds (State.initial seed lastContext) config) :
    Registry config.state := by
  have hboth : config.state.WellFormed ∧ Registry config.state := by
    refine h.state_invariant (P := fun s => s.WellFormed ∧ Registry s) ?_ ?_
    · refine ⟨State.wellFormed_initial seed lastContext, ?_, ?_, ?_, ?_⟩
      · intro key id hkey
        cases hkey
      · intro id c hc
        cases hc
      · intro id c hc
        cases hc
      · intro id c hc
        cases hc
    · intro s held task input hallowed hok hinv
      exact ⟨hinv.1.exec hallowed, hinv.2.exec hallowed hok hinv.1⟩
  exact hboth.2

/-- The entries name their connections, the ids are small keys, and a peer has one live connection
in a context. -/
theorem registry_consistent
    (h : signaling.Reachable CanonicalIds (State.initial seed lastContext) config) :
    (∀ key id, config.state.npidToConn key = some id →
      ∃ c, config.state.connections id = some c ∧ c.ctxId = key.1 ∧ c.npid = key.2) ∧
    (∀ id c, config.state.connections id = some c → c.connId = id ∧ 1 ≤ id ∧ id ≤ 0x7fff) ∧
    ∀ id id' c c', config.state.connections id = some c → config.state.connections id' = some c' →
      c.ctxId = c'.ctxId → c.onlineId.text = c'.onlineId.text → c.IsLive → c'.IsLive →
        id = id' := by
  have hregistry := registry_of_reachable h
  have hwf := wellFormed_of_reachable h
  refine ⟨hregistry.entries, fun id c hc => ⟨hwf.connId id c hc, hwf.bounds id c hc⟩, ?_⟩
  intro id id' c c' hc hc' hctx htext hlive hlive'
  have hnpid : c.npid = c'.npid := by
    rw [hregistry.canonical id c hc, hregistry.canonical id' c' hc', ← hregistry.handle id c hc,
      ← hregistry.handle id' c' hc', htext]
  have hkey := hregistry.live id c hc hlive
  rw [hctx, hnpid, hregistry.live id' c' hc' hlive'] at hkey
  exact (Option.some.inj hkey).symm

end Runs

theorem registry_consistent_sample :
    ((sampleConfig sampleActivated).state.npidToConn (1, sampleNpId 97 0)) = some 1 ∧
    ∀ id id' c c', (sampleConfig sampleActivated).state.connections id = some c →
      (sampleConfig sampleActivated).state.connections id' = some c' →
      c.ctxId = c'.ctxId → c.onlineId.text = c'.onlineId.text → c.IsLive → c'.IsLive →
        id = id' := by
  have hreachable : signaling.Reachable CanonicalIds (State.initial 0 0)
    (sampleConfig sampleActivated) := by
    refine sampleConfig_reachable ?_ ?_ ?_
    · exact fun _ _ _ task => match task with
        | .activateConnection _ peer => decide peer.Canonical
        | .handleControlPacket _ _ _ | .startHandshakeInitiator _ | .establishConnection _ _ =>
            false
        | _ => true
    · intro s held input task h
      cases task with
      | activateConnection ctxId peer => exact fun _ _ => of_decide_eq_true h
      | handleControlPacket fromAddr fromPort packet => cases h
      | startHandshakeInitiator id => cases h
      | establishConnection id hint => cases h
      | _ => trivial
    · decide
  exact ⟨by decide, (registry_consistent hreachable).2.2⟩

/-- Two ids with the same online id and different bytes after it. -/
def sampleTwice : List (Sections.Move Task Input) :=
  sampleActivated ++ sampleCall 3 (.activateConnection 1 (sampleNpId 97 1)) 1

/-- A peer has two live connections in a context. -/
theorem registry_two_live :
    ¬ ∀ config, signaling.Reachable Sections.anyRun (State.initial 0 0) config →
      ∀ id id' c c', config.state.connections id = some c → config.state.connections id' = some c' →
        c.ctxId = c'.ctxId → c.onlineId.text = c'.onlineId.text → c.IsLive → c'.IsLive →
          id = id' := by
  intro h
  have hreachable : signaling.Reachable Sections.anyRun (State.initial 0 0)
    (sampleConfig sampleTwice) :=
    sampleConfig_anyRun (by decide)
  have heq :=
    h _ hreachable 1 2 _ _ rfl rfl rfl rfl ⟨ConnState.noConfusion, rfl⟩ ⟨ConnState.noConfusion, rfl⟩
  exact absurd heq (by decide)

end PS4Droid.Np
