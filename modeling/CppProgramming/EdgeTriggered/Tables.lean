import CppProgramming.EdgeTriggered.Effects

/-! # The two tables

`Server::conns` and `SessionManager::sessions` name each other's entries: the invariant that every call keeps while
no descriptor loses its session in the middle of an event. -/

namespace EdgeTriggered

/-- The two tables are in bijection: the ids in `conns` are the keys of `sessions`, the descriptor of a session is
    the one that `conns` maps to its id, and every descriptor in `conns` is open. -/
structure World.Agree (w : World) : Prop where
  ids : ∀ id : ConnId, id ∈ w.sessions ↔ ∃ fd : Fd, w.conns[fd]? = some id
  fds : ∀ (id : ConnId) (p : SessionPtr), w.sessions[id]? = some p →
    ∃ s : Session, w.objects[p]? = some s ∧ ∀ fd : Fd, w.conns[fd]? = some id ↔ s.connHandler.fd = fd
  isOpen : ∀ fd : Fd, fd ∈ w.conns → w.isOpen fd = true

/-- What holds between two calls. -/
structure World.Inv (w : World) : Prop where
  entry : ∀ (id : ConnId) (p : SessionPtr), w.sessions[id]? = some p →
    ∃ s : Session, w.objects[p]? = some s ∧ s.id = id ∧ s.isClosed = false ∧ w.conns[s.connHandler.fd]? = some id
  conn : ∀ (fd : Fd) (id : ConnId), w.conns[fd]? = some id →
    ∃ (p : SessionPtr) (s : Session), w.sessions[id]? = some p ∧ w.objects[p]? = some s ∧ s.connHandler.fd = fd
  registered : ∀ fd : Fd, w.registered fd = true ↔ fd ∈ w.conns
  isOpen : ∀ fd : Fd, fd ∈ w.conns → w.isOpen fd = true
  idle : ∀ s ∈ w.objects, s.isReadable = false ∧ s.isWritable = false

/-- What a call for a session looks at: the session is found under its id, its descriptor leads back to it and is open,
    and it has nothing to do. -/
structure World.Sessions (w : World) : Prop where
  entry : ∀ (id : ConnId) (p : SessionPtr), w.sessions[id]? = some p →
    ∃ s : Session, w.objects[p]? = some s ∧ s.id = id ∧ s.isClosed = false ∧ w.conns[s.connHandler.fd]? = some id ∧
      w.registered s.connHandler.fd = true ∧ w.isOpen s.connHandler.fd = true
  idle : ∀ s ∈ w.objects, s.isReadable = false ∧ s.isWritable = false

/-- Every entry of `conns` leads to a session, too. -/
structure World.Tables (w : World) : Prop extends w.Sessions where
  conn : ∀ (fd : Fd) (id : ConnId), w.conns[fd]? = some id →
    ∃ (p : SessionPtr) (s : Session), w.sessions[id]? = some p ∧ w.objects[p]? = some s ∧ s.connHandler.fd = fd

/-- `Server::Start` before its first connection: `isOpen` are the descriptors that the process has, and the listening
    socket, whose events do not come to `ProcessEvent`, is not counted as registered. -/
def World.start (isOpen : Fd → Bool) : World := { isOpen := isOpen, registered := fun _ => false }

section Maps
variable {α β : Type} [Ord α] [Std.TransOrd α] {t : Std.TreeMap α β} {a k : α} {v : β}

theorem mem_iff_getElem? : a ∈ t ↔ ∃ v, t[a]? = some v := by
  rw [Std.TreeMap.mem_iff_isSome_getElem?, Option.isSome_iff_exists]

theorem size_erase_lt (h : a ∈ t) : (t.erase a).size < t.size := by
  have hcontains : t.contains a = true := h
  have hne : t.size ≠ 0 := by
    have hempty := Std.TreeMap.isEmpty_eq_false_of_contains hcontains
    rw [Std.TreeMap.isEmpty_eq_size_eq_zero] at hempty
    exact beq_eq_false_iff_ne.mp hempty
  rw [Std.TreeMap.size_erase, if_pos hcontains]
  exact Nat.sub_lt (Nat.pos_of_ne_zero hne) Nat.one_pos

variable [Std.LawfulEqOrd α] [DecidableEq α]

theorem getElem?_insert_iff : (t.insert k v)[a]? = if a = k then some v else t[a]? := by
  rw [Std.TreeMap.getElem?_insert]
  simp only [Std.compare_eq_iff_eq, @eq_comm _ k a]

theorem getElem?_erase_iff : (t.erase k)[a]? = if a = k then none else t[a]? := by
  rw [Std.TreeMap.getElem?_erase]
  simp only [Std.compare_eq_iff_eq, @eq_comm _ k a]

theorem mem_insert_iff : a ∈ t.insert k v ↔ a = k ∨ a ∈ t := by
  rw [mem_iff_getElem?, mem_iff_getElem?, getElem?_insert_iff]
  by_cases heq : a = k <;> simp [heq]

theorem mem_erase_iff : a ∈ t.erase k ↔ a ≠ k ∧ a ∈ t := by
  rw [mem_iff_getElem?, mem_iff_getElem?, getElem?_erase_iff]
  by_cases heq : a = k <;> simp [heq]

end Maps

namespace World
variable {w : World} {p : SessionPtr} {s s' : Session} {fd : Fd} {id : ConnId}

theorem Inv.agree (h : w.Inv) : w.Agree where
  ids id := by
    rw [mem_iff_getElem?]
    constructor
    · rintro ⟨p, hp⟩
      obtain ⟨s, -, -, -, hconn⟩ := h.entry id p hp
      exact ⟨_, hconn⟩
    · rintro ⟨fd, hfd⟩
      obtain ⟨p, s, hp, -, -⟩ := h.conn fd id hfd
      exact ⟨p, hp⟩
  fds id p hp := by
    obtain ⟨s, hs, -, -, hconn⟩ := h.entry id p hp
    refine ⟨s, hs, fun fd => ⟨fun hfd => ?_, fun hfd => hfd ▸ hconn⟩⟩
    obtain ⟨p', s', hp', hs', hfd'⟩ := h.conn fd id hfd
    obtain rfl := Option.some.inj (hp'.symm.trans hp)
    obtain rfl := Option.some.inj (hs'.symm.trans hs)
    exact hfd'
  isOpen := h.isOpen

theorem Inv.tables (h : w.Inv) : w.Tables where
  entry id p hp := by
    obtain ⟨s, hs, hsid, hclosed, hconn⟩ := h.entry id p hp
    have hmem : s.connHandler.fd ∈ w.conns := mem_iff_getElem?.mpr ⟨id, hconn⟩
    exact ⟨s, hs, hsid, hclosed, hconn, (h.registered _).mpr hmem, h.isOpen _ hmem⟩
  conn := h.conn
  idle := h.idle

/-- An entry of `conns` is of an open descriptor in the epoll set. -/
theorem Tables.open_of_mem (h : w.Tables) (hfd : fd ∈ w.conns) : w.registered fd = true ∧ w.isOpen fd = true := by
  obtain ⟨id, hid⟩ := mem_iff_getElem?.mp hfd
  obtain ⟨p, s, hp, hs, rfl⟩ := h.conn fd id hid
  obtain ⟨t, ht, -, -, -, hopen⟩ := h.entry id p hp
  obtain rfl := Option.some.inj (hs.symm.trans ht)
  exact hopen

theorem Tables.inv (h : w.Tables) (hregistered : ∀ fd, w.registered fd = true → fd ∈ w.conns) : w.Inv where
  entry id p hp := by
    obtain ⟨s, hs, hsid, hclosed, hconn, -⟩ := h.entry id p hp
    exact ⟨s, hs, hsid, hclosed, hconn⟩
  conn := h.conn
  registered fd := ⟨hregistered fd, fun hfd => (h.open_of_mem hfd).1⟩
  isOpen fd hfd := (h.open_of_mem hfd).2
  idle := h.idle

/-- The descriptor of a session is in `conns`. -/
theorem Sessions.mem_of_session (h : w.Sessions) (hid : w.sessions[id]? = some p) (hs : w.objects[p]? = some s) :
    s.connHandler.fd ∈ w.conns := by
  obtain ⟨t, ht, -, -, hconn, -⟩ := h.entry id p hid
  obtain rfl := Option.some.inj (hs.symm.trans ht)
  exact mem_iff_getElem?.mpr ⟨id, hconn⟩

theorem start_inv (isOpen : Fd → Bool) : (start isOpen).Inv where
  entry id p hp := by simp [start] at hp
  conn fd id hfd := by simp [start] at hfd
  registered fd := by simp [start]
  isOpen fd hfd := by simp [start] at hfd
  idle s hs := by simp [start] at hs

theorem objects_put (hp : p < w.objects.length) (q : SessionPtr) :
    (w.put p s).objects[q]? = if q = p then some s else w.objects[q]? := by
  by_cases hq : q = p
  · subst hq
    simp [put, hp]
  · simp [put, hq, Ne.symm hq]

theorem mem_put (h : s' ∈ (w.put p s).objects) : s' = s ∨ s' ∈ w.objects :=
  (List.mem_or_eq_of_mem_set h).symm

/-- A session may change its own members. -/
theorem Sessions.put (h : w.Sessions) (hs : w.objects[p]? = some s) (hid : s'.id = s.id)
    (hclosed : s'.isClosed = s.isClosed) (hfd : s'.connHandler.fd = s.connHandler.fd)
    (hidle : s'.isReadable = false ∧ s'.isWritable = false) :
    (w.put p s').Sessions := by
  obtain ⟨hp, -⟩ := List.getElem?_eq_some_iff.mp hs
  refine ⟨fun id q hq => ?_, fun t ht => ?_⟩
  · obtain ⟨t, ht, h1, h2, h3⟩ := h.entry id q hq
    rw [objects_put hp]
    split
    · next hqp =>
      subst hqp
      obtain rfl := Option.some.inj (hs.symm.trans ht)
      exact ⟨s', rfl, hid.trans h1, hclosed.trans h2, hfd ▸ h3⟩
    · exact ⟨t, ht, h1, h2, h3⟩
  · rcases mem_put ht with rfl | ht
    · exact hidle
    · exact h.idle t ht

theorem Tables.conn_put (h : w.Tables) (hs : w.objects[p]? = some s) (hfd : s'.connHandler.fd = s.connHandler.fd)
    (fd : Fd) (id : ConnId) (hconn : (w.put p s').conns[fd]? = some id) :
    ∃ q t, (w.put p s').sessions[id]? = some q ∧ (w.put p s').objects[q]? = some t ∧ t.connHandler.fd = fd := by
  obtain ⟨hp, -⟩ := List.getElem?_eq_some_iff.mp hs
  obtain ⟨q, t, hq, ht, htfd⟩ := h.conn fd id hconn
  refine ⟨q, ?_⟩
  rw [objects_put hp]
  split
  · next hqp =>
    subst hqp
    obtain rfl := Option.some.inj (hs.symm.trans ht)
    exact ⟨s', hq, rfl, hfd.trans htfd⟩
  · exact ⟨t, hq, ht, htfd⟩

/-- Two sessions have two objects. -/
theorem Sessions.object_ne (h : w.Sessions) (hid : w.sessions[id]? = some p) {id' : ConnId} {q : SessionPtr}
    (hq : w.sessions[id']? = some q) (hne : id' ≠ id) : q ≠ p := by
  rintro rfl
  obtain ⟨s, hs, hsid, -⟩ := h.entry id q hid
  obtain ⟨t, ht, htid, -⟩ := h.entry id' q hq
  obtain rfl := Option.some.inj (hs.symm.trans ht)
  exact hne (htid.symm.trans hsid)

/-- Of the sessions behind `release` each is another one. -/
theorem Sessions.of_release (h : w.Sessions) (hid : w.sessions[id]? = some p) (hs : w.objects[p]? = some s)
    {id' : ConnId} {q : SessionPtr} (hq : ((w.release s.connHandler.fd id).put p s').sessions[id']? = some q) :
    id' ≠ id ∧ w.sessions[id']? = some q ∧
      ((w.release s.connHandler.fd id).put p s').objects[q]? = w.objects[q]? := by
  obtain ⟨hp, -⟩ := List.getElem?_eq_some_iff.mp hs
  have hq' : (w.sessions.erase id)[id']? = some q := hq
  rw [getElem?_erase_iff] at hq'
  split at hq'
  · cases hq'
  · next hne =>
    refine ⟨hne, hq', ?_⟩
    rw [objects_put (w := w.release _ _) hp, if_neg (h.object_ne hid hq' hne)]
    rfl

/-- A session may go, together with its connection. -/
theorem Sessions.release (h : w.Sessions) (hid : w.sessions[id]? = some p) (hs : w.objects[p]? = some s)
    (hidle : s'.isReadable = false ∧ s'.isWritable = false) :
    ((w.release s.connHandler.fd id).put p s').Sessions := by
  obtain ⟨t₀, ht₀, -, -, hconn₀, -⟩ := h.entry id p hid
  obtain rfl := Option.some.inj (hs.symm.trans ht₀)
  refine ⟨fun id' q hq => ?_, fun t ht => ?_⟩
  · obtain ⟨hne, hq', hobject⟩ := h.of_release hid hs hq
    obtain ⟨t, ht, h1, h2, h3, h4, h5⟩ := h.entry id' q hq'
    -- Two sessions have two descriptors.
    have hfd : t.connHandler.fd ≠ s.connHandler.fd := by
      intro heq
      rw [heq, hconn₀] at h3
      exact hne (Option.some.inj h3).symm
    refine ⟨t, hobject.trans ht, h1, h2, ?_, ?_, ?_⟩
    · show (w.conns.erase s.connHandler.fd)[t.connHandler.fd]? = some id'
      rw [getElem?_erase_iff, if_neg hfd, h3]
    · show Function.update w.registered s.connHandler.fd false t.connHandler.fd = true
      rw [Function.update_of_ne hfd, h4]
    · show Function.update w.isOpen s.connHandler.fd false t.connHandler.fd = true
      rw [Function.update_of_ne hfd, h5]
  · rcases mem_put ht with rfl | ht
    · exact hidle
    · exact h.idle t ht

theorem Tables.conn_release (h : w.Tables) (hid : w.sessions[id]? = some p) (hs : w.objects[p]? = some s) (fd : Fd)
    (id' : ConnId) (hconn : ((w.release s.connHandler.fd id).put p s').conns[fd]? = some id') :
    ∃ q t, ((w.release s.connHandler.fd id).put p s').sessions[id']? = some q ∧
      ((w.release s.connHandler.fd id).put p s').objects[q]? = some t ∧ t.connHandler.fd = fd := by
  obtain ⟨hp, -⟩ := List.getElem?_eq_some_iff.mp hs
  have hconn' : (w.conns.erase s.connHandler.fd)[fd]? = some id' := hconn
  rw [getElem?_erase_iff] at hconn'
  split at hconn'
  · cases hconn'
  · next hne =>
    obtain ⟨q, t, hq, ht, htfd⟩ := h.conn fd id' hconn'
    have hid' : id' ≠ id := by
      rintro rfl
      obtain rfl := Option.some.inj (hid.symm.trans hq)
      obtain rfl := Option.some.inj (hs.symm.trans ht)
      exact hne htfd.symm
    refine ⟨q, t, ?_, ?_, htfd⟩
    · show (w.sessions.erase id)[id']? = some q
      rw [getElem?_erase_iff, if_neg hid', hq]
    · rw [objects_put (w := w.release _ _) hp, if_neg (h.toSessions.object_ne hid hq hid')]
      exact ht

/-- A new connection with its session. -/
def accept (w : World) (fd : Fd) : World :=
  { nextConnId := w.nextConnId + 1
    conns := w.conns.insert fd (w.nextConnId + 1)
    sessions := w.sessions.insert (w.nextConnId + 1) w.objects.length
    objects := w.objects ++ [{ id := w.nextConnId + 1, connHandler := { fd := fd } }]
    isOpen := Function.update w.isOpen fd true
    registered := Function.update w.registered fd true }

theorem accept_object {q : SessionPtr} {t : Session} (ht : w.objects[q]? = some t) :
    (w.accept fd).objects[q]? = some t := by
  obtain ⟨hlt, -⟩ := List.getElem?_eq_some_iff.mp ht
  simpa [World.accept, List.getElem?_append_left hlt] using ht

theorem accept_new : (w.accept fd).objects[w.objects.length]? =
    some { id := w.nextConnId + 1, connHandler := { fd := fd } } := by
  simp [World.accept]

theorem Sessions.accept (h : w.Sessions) (hfd : fd ∉ w.conns) : (w.accept fd).Sessions := by
  refine ⟨fun id q hq => ?_, fun t ht => ?_⟩
  · have hq' : (w.sessions.insert (w.nextConnId + 1) w.objects.length)[id]? = some q := hq
    rw [getElem?_insert_iff] at hq'
    split at hq'
    · next heq =>
      obtain rfl := Option.some.inj hq'
      refine ⟨_, accept_new, heq.symm, rfl, ?_, Function.update_self .., Function.update_self ..⟩
      show (w.conns.insert fd (w.nextConnId + 1))[fd]? = some id
      rw [getElem?_insert_iff, if_pos rfl, heq]
    · obtain ⟨t, ht, h1, h2, h3, h4, h5⟩ := h.entry id q hq'
      have hne : t.connHandler.fd ≠ fd := fun heq => hfd (mem_iff_getElem?.mpr ⟨id, heq ▸ h3⟩)
      refine ⟨t, accept_object ht, h1, h2, ?_, ?_, ?_⟩
      · show (w.conns.insert fd (w.nextConnId + 1))[t.connHandler.fd]? = some id
        rw [getElem?_insert_iff, if_neg hne, h3]
      · show Function.update w.registered fd true t.connHandler.fd = true
        rw [Function.update_of_ne hne, h4]
      · show Function.update w.isOpen fd true t.connHandler.fd = true
        rw [Function.update_of_ne hne, h5]
  · have ht' : t ∈ w.objects ++ [{ id := w.nextConnId + 1, connHandler := { fd := fd } }] := ht
    rcases List.mem_append.mp ht' with ht' | ht'
    · exact h.idle t ht'
    · obtain rfl := List.mem_singleton.mp ht'
      exact ⟨rfl, rfl⟩

theorem Tables.conn_accept (h : w.Tables) (hid : w.nextConnId + 1 ∉ w.sessions) (fd' : Fd) (id : ConnId)
    (hconn : (w.accept fd).conns[fd']? = some id) :
    ∃ q t, (w.accept fd).sessions[id]? = some q ∧ (w.accept fd).objects[q]? = some t ∧ t.connHandler.fd = fd' := by
  have hconn' : (w.conns.insert fd (w.nextConnId + 1))[fd']? = some id := hconn
  rw [getElem?_insert_iff] at hconn'
  split at hconn'
  · next heq =>
    obtain rfl := Option.some.inj hconn'
    refine ⟨_, _, ?_, accept_new, heq.symm⟩
    show (w.sessions.insert (w.nextConnId + 1) w.objects.length)[w.nextConnId + 1]? = _
    rw [getElem?_insert_iff, if_pos rfl]
  · obtain ⟨q, t, hq, ht, htfd⟩ := h.conn fd' id hconn'
    refine ⟨q, t, ?_, accept_object ht, htfd⟩
    show (w.sessions.insert (w.nextConnId + 1) w.objects.length)[id]? = some q
    rw [getElem?_insert_iff, if_neg, hq]
    rintro rfl
    exact hid (mem_iff_getElem?.mpr ⟨q, hq⟩)

end World

section Accept
variable {w : World} {fd : Fd}

theorem Server.processNewConnection_ok (hfd : fd ∉ w.conns) (hid : w.nextConnId + 1 ∉ w.sessions) :
    (Server.processNewConnection (.ok fd)).run w = .ok () (w.accept fd) := by
  have hc : w.conns.contains fd = false := Bool.eq_false_iff.mpr hfd
  have hs : w.sessions.contains (w.nextConnId + 1) = false := Bool.eq_false_iff.mpr hid
  simp only [Server.processNewConnection, Server.accept, Server.add, SessionManager.newConnection,
    SessionManager.verifySessionNotExist, bind_assoc, get_bind, modify_bind, hc, hs, Bool.false_eq_true, if_false,
    pure_bind, modify_run]
  rfl

/-- Where `ProcessNewConnection` throws, the tables are as they were. -/
theorem Server.processNewConnection_error (h : ¬(fd ∉ w.conns ∧ w.nextConnId + 1 ∉ w.sessions)) :
    ∃ e w', (Server.processNewConnection (.ok fd)).run w = .error e w' ∧ w'.conns = w.conns ∧ w'.sessions = w.sessions ∧
      w'.objects = w.objects ∧ w'.isOpen = Function.update w.isOpen fd true := by
  by_cases hfd : fd ∈ w.conns
  · have hc : w.conns.contains fd = true := hfd
    refine ⟨.fdExist, { w with isOpen := Function.update w.isOpen fd true }, ?_, rfl, rfl, rfl, rfl⟩
    simp only [Server.processNewConnection, Server.accept, bind_assoc, pure_bind, get_bind, modify_bind, hc, if_true,
      throw_bind]
  · have hc : w.conns.contains fd = false := Bool.eq_false_iff.mpr hfd
    have hs : w.sessions.contains (w.nextConnId + 1) = true := by
      by_contra hs
      exact h ⟨hfd, hs⟩
    refine ⟨.verifySessionNotExist,
      { w with
        nextConnId := w.nextConnId + 1
        isOpen := Function.update w.isOpen fd true
        registered := Function.update w.registered fd true }, ?_, rfl, rfl, rfl, rfl⟩
    simp only [Server.processNewConnection, Server.accept, Server.add, SessionManager.newConnection,
      SessionManager.verifySessionNotExist, bind_assoc, pure_bind, get_bind, modify_bind, hc, hs, Bool.false_eq_true,
      if_false, if_true, throw_bind]

/-- Where a system call fails, they are too. -/
theorem Server.processNewConnection_fails (failure : AcceptFailure) :
    ∃ e w', (Server.processNewConnection (.error failure)).run w = .error e w' ∧ w'.conns = w.conns ∧
      w'.sessions = w.sessions ∧ w'.objects = w.objects ∧
      (w'.isOpen = w.isOpen ∨ ∃ fd, w'.isOpen = Function.update w.isOpen fd true) := by
  cases failure with
  | accept code =>
    refine ⟨.accept code, w, ?_, rfl, rfl, rfl, .inl rfl⟩
    simp only [Server.processNewConnection, Server.accept, throw_bind]
  | inetNtop fd code =>
    refine ⟨.inetNtop code, { w with isOpen := Function.update w.isOpen fd true }, ?_, rfl, rfl, rfl, .inr ⟨fd, rfl⟩⟩
    simp only [Server.processNewConnection, Server.accept, bind_assoc, modify_bind, throw_bind]
  | epollAdd fd code =>
    by_cases hfd : fd ∈ w.conns
    · have hc : w.conns.contains fd = true := hfd
      refine ⟨.fdExist, { w with isOpen := Function.update w.isOpen fd true }, ?_, rfl, rfl, rfl, .inr ⟨fd, rfl⟩⟩
      simp only [Server.processNewConnection, Server.accept, bind_assoc, pure_bind, get_bind, modify_bind, hc, if_true,
        throw_bind]
    · have hc : w.conns.contains fd = false := Bool.eq_false_iff.mpr hfd
      refine ⟨.addFd code,
        { w with nextConnId := w.nextConnId + 1, isOpen := Function.update w.isOpen fd true }, ?_, rfl, rfl, rfl,
        .inr ⟨fd, rfl⟩⟩
      simp only [Server.processNewConnection, Server.accept, Server.add, bind_assoc, pure_bind, get_bind, modify_bind, hc,
        Bool.false_eq_true, if_false, throw_bind]

end Accept

/-! ### The calls of the session manager -/

/-- A new connection, one for which a system call fails, or a call of `SessionManager` for the session `id`. -/
inductive Call where
  | newConnection (fd : Fd)
  | connectionFails (failure : AcceptFailure)
  | canRead (id : ConnId) (calls : ReadCalls) (writeCalls : WriteCalls)
  | canWrite (id : ConnId) (calls : WriteCalls)
  | errorOccurred (id : ConnId)
  | timeToExit (id : ConnId)

/-- The call as the server makes it. -/
def Call.exec : Call → Exec Unit
  | .newConnection fd => Server.processNewConnection (.ok fd)
  | .connectionFails failure => Server.processNewConnection (.error failure)
  | .canRead id calls writeCalls => SessionManager.canRead id calls writeCalls
  | .canWrite id calls => SessionManager.canWrite id calls
  | .errorOccurred id => SessionManager.errorOccurred id
  | .timeToExit id => SessionManager.timeToExit id

/-- The world after a call that returns; the server does not survive an exception. -/
def World.step (w : World) (call : Call) : Option World :=
  match call.exec.run w with
  | .ok _ w' => some w'
  | .error _ _ => none

/-- What a call that returns does. -/
inductive World.Step (w : World) : Call → World → Prop
  | accept {fd : Fd} : fd ∉ w.conns → w.nextConnId + 1 ∉ w.sessions → Step w (.newConnection fd) (w.accept fd)
  | read {id : ConnId} {p : SessionPtr} {s : Session} {calls : ReadCalls} {writeCalls : WriteCalls} :
      w.sessions[id]? = some p → w.objects[p]? = some s → calls.Succeeds →
      Step w (.canRead id calls writeCalls)
        (w.put p (s.afterRead calls.text (s.connHandler.isEof || calls.stop == .eof)))
  | write {id : ConnId} {p : SessionPtr} {s : Session} {calls : WriteCalls} :
      w.sessions[id]? = some p → w.objects[p]? = some s →
      Step w (.canWrite id calls) (w.put p (s.afterWrite calls.total))
  | writeClose {id : ConnId} {p : SessionPtr} {s : Session} {calls : WriteCalls} :
      w.sessions[id]? = some p → w.objects[p]? = some s → s.output.length ≤ calls.total →
      Step w (.canWrite id calls)
        ((w.release s.connHandler.fd id).put p { s.afterWrite calls.total with isClosed := true })
  | close {call : Call} {id : ConnId} {p : SessionPtr} {s : Session} : call = .errorOccurred id ∨ call = .timeToExit id →
      w.sessions[id]? = some p → w.objects[p]? = some s →
      Step w call ((w.release s.connHandler.fd id).put p { s with isClosed := true })

section Steps
variable {w w' : World} {call : Call}

theorem World.step_eq_some : w.step call = some w' ↔ call.exec.run w = .ok () w' := by
  unfold World.step
  split
  · next a w'' h => rw [h, Option.some_inj, EStateM.Result.ok.injEq, and_iff_right rfl]
  · next e w'' h => simp [h]

/-- A call for a session that does not exist throws. -/
theorem SessionManager.verify_error {β : Type} {id : ConnId} {f : SessionPtr → Exec β} (hid : id ∉ w.sessions) :
    (do verifySessionExist id; f (← sessionAt id)).run w = .error .verifySessionExist w := by
  rw [bind_error (verifySessionExist_error hid)]

/-- Where a call returns, its session is there. -/
theorem SessionManager.exists_of_ok {β : Type} {b : β} {id : ConnId} {f : SessionPtr → Exec β} (hI : w.Sessions)
    (h : (do verifySessionExist id; f (← sessionAt id)).run w = .ok b w') :
    ∃ p s, w.sessions[id]? = some p ∧ w.objects[p]? = some s ∧ s.id = id ∧ s.isClosed = false ∧
      s.isWritable = false ∧ w.registered s.connHandler.fd = true ∧ w.isOpen s.connHandler.fd = true := by
  by_cases hid : id ∈ w.sessions
  · obtain ⟨p, hp⟩ := mem_iff_getElem?.mp hid
    obtain ⟨s, hs, hsid, hclosed, -, hreg, hopen⟩ := hI.entry id p hp
    exact ⟨p, s, hp, hs, hsid, hclosed, (hI.idle s (List.mem_of_getElem? hs)).2, hreg, hopen⟩
  · rw [verify_error hid] at h
    cases h

theorem World.step_cases (hI : w.Sessions) (h : w.step call = some w') : w.Step call w' := by
  rw [step_eq_some] at h
  cases call with
  | newConnection fd =>
    by_cases hok : fd ∉ w.conns ∧ w.nextConnId + 1 ∉ w.sessions
    · rw [Call.exec, Server.processNewConnection_ok hok.1 hok.2] at h
      cases h
      exact .accept hok.1 hok.2
    · obtain ⟨e, w'', herr, -⟩ := Server.processNewConnection_error hok
      rw [Call.exec, herr] at h
      cases h
  | connectionFails failure =>
    obtain ⟨e, w'', herr, -⟩ := Server.processNewConnection_fails (w := w) failure
    rw [Call.exec, herr] at h
    cases h
  | canRead id calls writeCalls =>
    obtain ⟨p, s, hp, hs, -, -, hw, -, -⟩ := SessionManager.exists_of_ok hI h
    by_cases hstop : calls.Succeeds
    · rw [Call.exec, SessionManager.canRead_ok hp hs hw hstop] at h
      cases h
      exact .read hp hs hstop
    · obtain ⟨code, hcode⟩ : ∃ code, calls.stop = .error code := by
        simpa [ReadCalls.Succeeds] using hstop
      rw [Call.exec, SessionManager.canRead_error hp hs hcode] at h
      cases h
  | canWrite id calls =>
    obtain ⟨p, s, hp, hs, hsid, hclosed, -, hreg, hopen⟩ := SessionManager.exists_of_ok hI h
    by_cases hall : s.output.length ≤ calls.total
    · by_cases heof : s.connHandler.isEof = true
      · rw [Call.exec, SessionManager.canWrite_closes hp hs heof hall hsid hclosed hreg hopen] at h
        cases h
        exact .writeClose hp hs hall
      · rw [Call.exec, SessionManager.canWrite_stays hp hs (.inl hall) (fun hc => heof hc.1)] at h
        cases h
        exact .write hp hs
    · cases hstop : calls.stop with
      | again =>
        rw [Call.exec, SessionManager.canWrite_stays hp hs (.inr hstop) (fun hc => hall hc.2)] at h
        cases h
        exact .write hp hs
      | error code =>
        rw [Call.exec, SessionManager.canWrite_error hp hs (Nat.lt_of_not_le hall) hstop] at h
        cases h
  | errorOccurred id =>
    obtain ⟨p, s, hp, hs, hsid, hclosed, -, hreg, hopen⟩ := SessionManager.exists_of_ok hI h
    rw [Call.exec, SessionManager.close_run hp hs hsid hclosed hreg hopen] at h
    cases h
    exact .close (.inl rfl) hp hs
  | timeToExit id =>
    obtain ⟨p, s, hp, hs, hsid, hclosed, -, hreg, hopen⟩ := SessionManager.exists_of_ok hI h
    -- `TimeToExit` has the body of `ErrorOccurred`.
    have hrun : (Call.timeToExit id).exec.run w = _ := SessionManager.close_run hp hs hsid hclosed hreg hopen
    rw [hrun] at h
    cases h
    exact .close (.inr rfl) hp hs

theorem World.Sessions.of_step (hI : w.Sessions) (h : w.Step call w') : w'.Sessions := by
  cases h with
  | accept hfd hid => exact hI.accept hfd
  | read hp hs hstop => exact hI.put hs rfl rfl rfl ⟨rfl, (hI.idle _ (List.mem_of_getElem? hs)).2⟩
  | write hp hs => exact hI.put hs rfl rfl rfl ⟨(hI.idle _ (List.mem_of_getElem? hs)).1, rfl⟩
  | writeClose hp hs hall => exact hI.release hp hs ⟨(hI.idle _ (List.mem_of_getElem? hs)).1, rfl⟩
  | close hcall hp hs =>
    have hidle := hI.idle _ (List.mem_of_getElem? hs)
    exact hI.release hp hs ⟨hidle.1, hidle.2⟩

theorem World.Tables.of_step (hI : w.Tables) (h : w.Step call w') : w'.Tables where
  toSessions := hI.toSessions.of_step h
  conn := by
    cases h with
    | accept hfd hid => exact hI.conn_accept hid
    | read hp hs hstop => exact hI.conn_put hs rfl
    | write hp hs => exact hI.conn_put hs rfl
    | writeClose hp hs hall => exact hI.conn_release hp hs
    | close hcall hp hs => exact hI.conn_release hp hs

/-- Only the calls that put a descriptor into `conns` put it into the epoll set. -/
theorem World.Step.registered_mem (h : w.Step call w') (hreg : ∀ fd, w.registered fd = true → fd ∈ w.conns) :
    ∀ fd, w'.registered fd = true → fd ∈ w'.conns := by
  have hrelease : ∀ (s : Session) (id : ConnId) (fd : Fd), (w.release s.connHandler.fd id).registered fd = true →
      fd ∈ (w.release s.connHandler.fd id).conns := by
    intro s id fd hfd
    have hfd' : Function.update w.registered s.connHandler.fd false fd = true := hfd
    have hne : fd ≠ s.connHandler.fd := by
      rintro rfl
      simp at hfd'
    rw [Function.update_of_ne hne] at hfd'
    exact mem_erase_iff.mpr ⟨hne, hreg fd hfd'⟩
  cases h with
  | @accept fd hno hid =>
    intro fd' hfd'
    have hfd'' : Function.update w.registered fd true fd' = true := hfd'
    refine mem_insert_iff.mpr (or_iff_not_imp_left.mpr fun hne => hreg fd' ?_)
    rwa [Function.update_of_ne hne] at hfd''
  | read hp hs hstop => exact hreg
  | write hp hs => exact hreg
  | @writeClose id p s calls hp hs hall => exact hrelease s id
  | @close call id p s hcall hp hs => exact hrelease s id

theorem World.Inv.of_step (hI : w.Inv) (h : w.Step call w') : w'.Inv :=
  (hI.tables.of_step h).inv (h.registered_mem fun fd => (hI.registered fd).mp)

theorem World.Inv.step (hI : w.Inv) (h : w.step call = some w') : w'.Inv :=
  hI.of_step (World.step_cases hI.tables.toSessions h)

end Steps

end EdgeTriggered
