import CppProgramming.Lib.Streams
import CppProgramming.EdgeTriggered.Client
import CppProgramming.EdgeTriggered.Events
import CppProgramming.SocketTcp.Drain

/-! # The service

A session server and its clients, each at the other end of one connection. The clients are numbered in the order in
which the server accepts them, so that the session object at a position is the one of the client with that number. What a
client types comes back sentence by sentence, turned around, and nothing of what another client types. -/

namespace EdgeTriggered
open Streams

/-! ### Connections of the server -/

/-- The history of the connection of the session at `p`. -/
def World.wire (w : World) (p : SessionPtr) : Wire := (w.objects[p]?.map Session.wire).getD {}

/-- The end of file has been read on it. -/
def World.isEof (w : World) (p : SessionPtr) : Bool := (w.objects[p]?.map fun s => s.connHandler.isEof).getD false

/-- The session has been closed. -/
def World.isClosed (w : World) (p : SessionPtr) : Bool := (w.objects[p]?.map Session.isClosed).getD false

/-- The session that a call reads for. -/
def World.target (w : World) : Call → Option SessionPtr
  | .canRead id _ _ => w.sessions[id]?
  | _ => none

/-- What one call, whether or not it throws, does to the connection of the session at `p`: it may be left as it is, or
    its session may be open and read from it, or write to it what it owes. -/
inductive World.Moves (w : World) (call : Call) (p : SessionPtr) (w' : World) : Prop
  | idle : (w.target call = some p → w.step call = none) → w'.wire p = w.wire p → w'.isEof p = w.isEof p →
      (w.isClosed p = true → w'.isClosed p = true) → Moves w call p w'
  | read {id : ConnId} {calls : ReadCalls} {writeCalls : WriteCalls} : call = .canRead id calls writeCalls →
      w.sessions[id]? = some p → w.isClosed p = false →
      (w'.wire p).received = (w.wire p).received ++ calls.text → (w'.wire p).accepted = (w.wire p).accepted →
      w'.isEof p = (w.isEof p || calls.stop == .eof) → Moves w call p w'
  | write {s : Session} (n : Nat) : w.target call = none → w.objects[p]? = some s → s.isClosed = false →
      (w'.wire p).received = (w.wire p).received → (w'.wire p).accepted = (w.wire p).accepted ++ s.output.take n →
      w'.isEof p = w.isEof p → Moves w call p w'

section Moves
variable {w w' : World} {call : Call} {p q : SessionPtr} {s s' : Session}

theorem World.wire_of_object (h : w.objects[p]? = some s) : w.wire p = s.wire := by
  rw [wire, h]
  rfl

theorem World.isEof_of_object (h : w.objects[p]? = some s) : w.isEof p = s.connHandler.isEof := by
  rw [isEof, h]
  rfl

theorem World.isClosed_of_object (h : w.objects[p]? = some s) : w.isClosed p = s.isClosed := by
  rw [isClosed, h]
  rfl

theorem World.Moves.of_object (hread : w.target call = some q → w.step call = none)
    (h : w'.objects[q]? = w.objects[q]?) : w.Moves call q w' :=
  .idle hread (by rw [wire, h, wire]) (by rw [isEof, h, isEof]) fun hclosed => by rwa [isClosed, h, ← isClosed]

/-- Of all sessions only the one at `p` is changed. -/
theorem World.Moves.of_set (hs : w.objects[p]? = some s) (hset : w'.objects = w.objects.set p s')
    (hother : ∀ q, p ≠ q → w.target call = some q → w.step call = none)
    (hmoves : w'.objects[p]? = some s' → w.Moves call p w') (q : SessionPtr) : w.Moves call q w' := by
  obtain ⟨hp, -⟩ := List.getElem?_eq_some_iff.mp hs
  by_cases hq : p = q
  · subst hq
    exact hmoves (by rw [hset, List.getElem?_set_self hp])
  · exact .of_object (hother q hq) (by rw [hset, List.getElem?_set_ne hq])

theorem World.Moves.of_same (hread : w.target call = some p → w.step call = none) (hs : w.objects[p]? = some s)
    (hs' : w'.objects[p]? = some s') (hwire : s'.wire = s.wire) (heof : s'.connHandler.isEof = s.connHandler.isEof)
    (hclosed : s.isClosed = true → s'.isClosed = true) : w.Moves call p w' := by
  refine .idle hread ?_ ?_ ?_
  · rw [wire_of_object hs, wire_of_object hs', hwire]
  · rw [isEof_of_object hs, isEof_of_object hs', heof]
  · rw [isClosed_of_object hs, isClosed_of_object hs']
    exact hclosed

theorem World.Moves.of_write (hread : w.target call = none) (hs : w.objects[p]? = some s)
    (hs' : w'.objects[p]? = some s') (n : Nat) (hclosed : s.isClosed = false)
    (hreceived : s'.wire.received = s.wire.received) (haccepted : s'.wire.accepted = s.wire.accepted ++ s.output.take n)
    (heof : s'.connHandler.isEof = s.connHandler.isEof) : w.Moves call p w' := by
  refine .write n hread hs hclosed ?_ ?_ ?_
  · rw [wire_of_object hs, wire_of_object hs', hreceived]
  · rw [wire_of_object hs, wire_of_object hs', haccepted]
  · rw [isEof_of_object hs, isEof_of_object hs', heof]

/-- A call that reads for no session. -/
theorem World.idle_of_target (h : w.target call = none) (q : SessionPtr) :
    w.target call = some q → w.step call = none := by
  rw [h]
  exact fun hq => by cases hq

/-- A call that returns. -/
theorem World.Step.moves (hI : w.Sessions) (h : w.Step call w') (q : SessionPtr) : w.Moves call q w' := by
  have hopen : ∀ {id : ConnId} {p : SessionPtr} {s : Session}, w.sessions[id]? = some p → w.objects[p]? = some s →
      s.isClosed = false := by
    intro id p s hp hs
    obtain ⟨t, ht, -, hclosed, -⟩ := hI.entry id p hp
    obtain rfl := Option.some.inj (hs.symm.trans ht)
    exact hclosed
  cases h with
  | @accept fd hfd hid =>
    have htarget : w.target (.newConnection fd) = none := rfl
    have hidle := idle_of_target htarget
    rcases Nat.lt_trichotomy q w.objects.length with hlt | rfl | hgt
    · exact .of_object (hidle q) (List.getElem?_append_left hlt)
    · have hnone : w.objects[w.objects.length]? = none := List.getElem?_eq_none (Nat.le_refl _)
      refine .idle (hidle _) ?_ ?_ ?_
      · rw [wire_of_object accept_new, wire, hnone]
        rfl
      · rw [isEof_of_object accept_new, isEof, hnone]
        rfl
      · rw [isClosed, hnone]
        exact fun h => by cases h
    · refine .of_object (hidle q) ?_
      rw [List.getElem?_eq_none (Nat.le_of_lt hgt)]
      exact List.getElem?_eq_none (by simpa [World.accept] using hgt)
  | @read id p s calls writeCalls hp hs hstop =>
    have hother : ∀ q, p ≠ q → w.target (.canRead id calls writeCalls) = some q →
        w.step (.canRead id calls writeCalls) = none := by
      intro q hq htarget
      exact absurd (Option.some.inj (hp.symm.trans htarget)) hq
    refine .of_set hs rfl hother (fun hs' => ?_) q
    refine .read rfl hp ((isClosed_of_object hs).trans (hopen hp hs)) ?_ ?_ ?_
    · rw [wire_of_object hs, wire_of_object hs']
      rfl
    · rw [wire_of_object hs, wire_of_object hs']
      rfl
    · rw [isEof_of_object hs, isEof_of_object hs']
      rfl
  | @write id p s calls hp hs =>
    refine .of_set hs rfl (fun q _ => idle_of_target rfl q) (fun hs' => ?_) q
    exact .of_write rfl hs hs' calls.total (hopen hp hs) rfl rfl rfl
  | @writeClose id p s calls hp hs hall =>
    refine .of_set hs rfl (fun q _ => idle_of_target rfl q) (fun hs' => ?_) q
    exact .of_write rfl hs hs' calls.total (hopen hp hs) rfl rfl rfl
  | @close call id p s hcall hp hs =>
    have htarget : w.target call = none := by
      rcases hcall with rfl | rfl <;> rfl
    refine .of_set hs rfl (fun q _ => idle_of_target htarget q) (fun hs' => ?_) q
    exact .of_same (idle_of_target htarget p) hs hs' rfl rfl fun _ => rfl

/-- A call that throws. -/
theorem World.Sessions.moves_error (hI : w.Sessions) {e : Error} (h : call.exec.run w = .error e w') (q : SessionPtr) :
    w.Moves call q w' := by
  have hthrows : w.step call = none := by
    rw [World.step, h]
  -- Without a session nothing happens.
  have hnone : ∀ {β : Type} {id : ConnId} {f : SessionPtr → Exec β} {e : Error},
      id ∉ w.sessions → (do SessionManager.verifySessionExist id; f (← SessionManager.sessionAt id)).run w = .error e w' →
      w.Moves call q w' := by
    intro β id f e hid hrun
    rw [SessionManager.verify_error hid] at hrun
    cases hrun
    exact .of_object (fun _ => hthrows) rfl
  cases call with
  | newConnection fd =>
    by_cases hok : fd ∉ w.conns ∧ w.nextConnId + 1 ∉ w.sessions
    · rw [Call.exec, Server.processNewConnection_ok hok.1 hok.2] at h
      cases h
    · obtain ⟨e', w'', herr, -, -, hobjects, -⟩ := Server.processNewConnection_error hok
      rw [Call.exec, herr] at h
      cases h
      exact .of_object (fun _ => hthrows) (by rw [hobjects])
  | connectionFails failure =>
    obtain ⟨e', w'', hfails, -, -, hobjects, -⟩ := Server.processNewConnection_fails (w := w) failure
    rw [Call.exec, hfails] at h
    cases h
    exact .of_object (fun _ => hthrows) (by rw [hobjects])
  | canRead id calls writeCalls =>
    by_cases hid : id ∈ w.sessions
    · obtain ⟨p, hp⟩ := mem_iff_getElem?.mp hid
      obtain ⟨s, hs, -⟩ := hI.entry id p hp
      have hw := (hI.idle s (List.mem_of_getElem? hs)).2
      by_cases hstop : calls.Succeeds
      · rw [Call.exec, SessionManager.canRead_ok hp hs hw hstop] at h
        cases h
      · obtain ⟨code, hcode⟩ : ∃ code, calls.stop = .error code := by
          simpa [ReadCalls.Succeeds] using hstop
        rw [Call.exec, SessionManager.canRead_error hp hs hcode] at h
        cases h
        refine .of_set hs rfl (fun _ _ _ => hthrows) (fun hs' => ?_) q
        exact .of_same (fun _ => hthrows) hs hs' rfl rfl fun hclosed => hclosed
    · exact hnone hid h
  | canWrite id calls =>
    by_cases hid : id ∈ w.sessions
    · obtain ⟨p, hp⟩ := mem_iff_getElem?.mp hid
      obtain ⟨s, hs, hsid, hclosed, -, hreg, hopen⟩ := hI.entry id p hp
      by_cases hall : s.output.length ≤ calls.total
      · by_cases heof : s.connHandler.isEof = true
        · rw [Call.exec, SessionManager.canWrite_closes hp hs heof hall hsid hclosed hreg hopen] at h
          cases h
        · rw [Call.exec, SessionManager.canWrite_stays hp hs (.inl hall) (fun hc => heof hc.1)] at h
          cases h
      · cases hstop : calls.stop with
        | again =>
          rw [Call.exec, SessionManager.canWrite_stays hp hs (.inr hstop) (fun hc => hall hc.2)] at h
          cases h
        | error code =>
          rw [Call.exec, SessionManager.canWrite_error hp hs (Nat.lt_of_not_le hall) hstop] at h
          cases h
          refine .of_set hs rfl (fun _ _ _ => hthrows) (fun hs' => ?_) q
          exact .of_write rfl hs hs' calls.total hclosed rfl rfl rfl
    · exact hnone hid h
  | errorOccurred id =>
    by_cases hid : id ∈ w.sessions
    · obtain ⟨p, hp⟩ := mem_iff_getElem?.mp hid
      obtain ⟨s, hs, hsid, hclosed, -, hreg, hopen⟩ := hI.entry id p hp
      rw [Call.exec, SessionManager.close_run hp hs hsid hclosed hreg hopen] at h
      cases h
    · exact hnone hid h
  | timeToExit id =>
    by_cases hid : id ∈ w.sessions
    · obtain ⟨p, hp⟩ := mem_iff_getElem?.mp hid
      obtain ⟨s, hs, hsid, hclosed, -, hreg, hopen⟩ := hI.entry id p hp
      have hrun : (Call.timeToExit id).exec.run w = _ := SessionManager.close_run hp hs hsid hclosed hreg hopen
      rw [hrun] at h
      cases h
    · exact hnone hid h

/-- What a call does to a connection when the tables agree. -/
theorem World.Good.moves (h : w.Good) (call : Call) (p : SessionPtr) :
    w.Moves call p (worldAfter (call.exec.run w)) := by
  have hI := h.toInv.tables.toSessions
  cases hrun : call.exec.run w with
  | ok _ w' => exact (World.step_cases hI (World.step_eq_some.mpr hrun)).moves hI p
  | error e w' => exact hI.moves_error hrun p

end Moves

/-! ### The parties -/

/-- How far a process is; its sockets are closed when it has gone. -/
inductive Stage where
  | running
  | ended
  | gone
  deriving DecidableEq, Repr

/-- The server, with what the calls of `read` have delivered for each session. Between two calls its tables agree. -/
structure Hub where
  world : World
  stage : Stage
  chunks : SessionPtr → List Drain.Chunk
  good : stage = .running → world.Good

/-- `read` returns 0 in the call. -/
def Call.readsEof : Call → Bool
  | .canRead _ calls _ => calls.stop == .eof
  | _ => false

/-- What the calls of `read` deliver into the buffer of three bytes. -/
def Call.Delivers (chunks : List Drain.Chunk) : Call → Prop
  | .canRead _ calls _ => calls.chunks = (chunks.map fun chunk => CString.content (chunk.memory 3)) ∧
      ∀ chunk ∈ chunks, 1 ≤ chunk.bytes.length ∧ chunk.bytes.length ≤ 3
  | _ => chunks = []

/-- The bytes that calls of `read` have delivered. -/
def delivered (chunks : List Drain.Chunk) : ByteString := (chunks.map Drain.Chunk.bytes).flatten

/-- What `s += &buf[0]` has made of them. -/
def appended (chunks : List Drain.Chunk) : ByteString :=
  (chunks.map fun chunk => CString.content (chunk.memory 3)).flatten

namespace Hub

/-- What arrives for each session in a call. -/
def arrives (h : Hub) (call : Call) (chunks : List Drain.Chunk) (p : SessionPtr) : List Drain.Chunk :=
  if h.world.target call = some p then chunks else []

/-- For which session `read` returns 0. -/
def told (h : Hub) (call : Call) (p : SessionPtr) : Bool := call.readsEof && h.world.target call = some p

/-- After a call, which the server does not survive if it throws. -/
def after (h : Hub) (hrunning : h.stage = .running) (call : Call) (chunks : List Drain.Chunk) : Hub where
  world := worldAfter (call.exec.run h.world)
  stage := if (h.world.step call).isSome then .running else .ended
  chunks p := h.chunks p ++ h.arrives call chunks p
  good := by
    intro hstage
    have hsome : (h.world.step call).isSome := by
      by_contra hnone
      rw [if_neg hnone] at hstage
      cases hstage
    obtain ⟨w', hw'⟩ := Option.isSome_iff_exists.mp hsome
    have hafter : worldAfter (call.exec.run h.world) = w' := by
      rw [World.step_eq_some.mp hw']
      rfl
    rw [hafter]
    exact (h.good hrunning).step hw'

/-- A call, or the end of a server that has thrown: what arrives for each session, and for which
it is told of the end. -/
inductive Step : Hub → (SessionPtr → ByteString) → (SessionPtr → Bool) → Hub → Prop
  | call {h : Hub} (hrunning : h.stage = .running) (call : Call) (chunks : List Drain.Chunk) : call.Delivers chunks →
      Step h (fun p => delivered (h.arrives call chunks p)) (h.told call) (h.after hrunning call chunks)
  | close {h : Hub} : h.stage = .ended →
      Step h (fun _ => []) (fun _ => false) { h with stage := .gone, good := fun h => by cases h }

end Hub

/-- A client. -/
structure ClientPeer where
  state : Client.State := {}
  stage : Stage := .running

namespace ClientPeer

/-- After a round. -/
def round (p : ClientPeer) (x : Client.Polled × Client.Calls) : ClientPeer where
  state := Client.lastState ((Client.round x.1 x.2).run p.state)
  stage := if ((Client.round x.1 x.2).run p.state) matches .ok _ _ then .running else .ended

/-- A round, or the end of the process, which may come at any time. -/
inductive Step : ClientPeer → ByteString → Bool → ClientPeer → Prop
  | round {p : ClientPeer} (x : Client.Polled × Client.Calls) : p.stage = .running → x.2.Fits →
      Step p ((p.round x).state.delivered.drop p.state.delivered.length) (p.round x).state.eof (p.round x)
  | close {p : ClientPeer} : p.stage ≠ .gone → Step p [] false { p with stage := .gone }

end ClientPeer

/-- The server is `none`, and `some c` the client with the number `c`. -/
def Party : Option Nat → Type
  | none => Hub
  | some _ => ClientPeer

/-- The server, its clients and their connections. -/
def service : Protocol (Option Nat) UInt8 Party where
  step
    | none, h, d, e, h' => Hub.Step h (fun c => d (some c)) (fun c => e (some c)) h' ∧ d none = [] ∧ e none = false
    | some _, p, d, e, p' => ClientPeer.Step p (d none) (e none) p' ∧ (∀ c, d (some c) = []) ∧ ∀ c, e (some c) = false
  sent
    | none, h, some c => ((Hub.world h).wire c).accepted
    | some _, p, none => (ClientPeer.state p).accepted
    | none, _, none => []
    | some _, _, some _ => []
  got
    | none, h, some c => delivered (Hub.chunks h c)
    | some _, p, none => (ClientPeer.state p).delivered
    | none, _, none => []
    | some _, _, some _ => []
  shut
    | none, h, some c => (Hub.world h).isClosed c || Hub.stage h = .gone
    | some _, p, none => ClientPeer.stage p = .gone
    | none, _, none => false
    | some _, _, some _ => false
  ended
    | none, h, some c => (Hub.world h).isEof c
    | some _, p, none => (ClientPeer.state p).eof
    | none, _, none => false
    | some _, _, some _ => false

/-! ### What a step keeps -/

theorem delivered_append {xs ys : List Drain.Chunk} : delivered (xs ++ ys) = delivered xs ++ delivered ys := by
  rw [delivered, List.map_append, List.flatten_append]
  rfl

theorem appended_append {xs ys : List Drain.Chunk} : appended (xs ++ ys) = appended xs ++ appended ys := by
  rw [appended, List.map_append, List.flatten_append]
  rfl

/-- What a step of the server keeps of each connection. -/
theorem Hub.Step.lawful {h h' : Hub} {d : SessionPtr → ByteString} {e : SessionPtr → Bool} (hstep : Step h d e h')
    (p : SessionPtr) :
    (h.world.wire p).accepted <+: (h'.world.wire p).accepted ∧ delivered (h'.chunks p) = delivered (h.chunks p) ++ d p ∧
    (h.world.isClosed p = true ∨ h.stage = .gone → (h'.world.isClosed p = true ∨ h'.stage = .gone) ∧
      (h'.world.wire p).accepted = (h.world.wire p).accepted) ∧
    (h'.world.isEof p = true → h.world.isEof p = true ∨ e p = true) := by
  cases hstep with
  | call hrunning call chunks hdelivers =>
    have hopen : h.stage ≠ .gone := by
      rw [hrunning]
      exact Stage.noConfusion
    cases (h.good hrunning).moves call p with
    | idle hread hwire heof hclosed =>
      refine ⟨?_, delivered_append, fun hshut => ⟨.inl (hclosed (hshut.resolve_right hopen)), congrArg Wire.accepted hwire⟩,
        fun h' => .inl (heof ▸ h')⟩
      exact congrArg Wire.accepted hwire ▸ List.prefix_refl _
    | @read id calls writeCalls hcall hid hclosed hreceived haccepted heof =>
      refine ⟨?_, delivered_append, fun hshut => ?_, fun h' => ?_⟩
      · exact haccepted ▸ List.prefix_refl _
      · rw [hclosed] at hshut
        exact absurd (hshut.resolve_left Bool.false_ne_true) hopen
      · rcases Bool.or_eq_true_iff.mp (heof ▸ h') with hbefore | hnow
        · exact .inl hbefore
        · refine .inr ?_
          subst hcall
          rw [told, World.target, hid, Call.readsEof, hnow]
          simp
    | write n htarget hs hclosed hreceived haccepted heof =>
      refine ⟨?_, delivered_append, fun hshut => ?_, fun h' => .inl (heof ▸ h')⟩
      · exact haccepted ▸ List.prefix_append _ _
      · rw [World.isClosed_of_object hs, hclosed] at hshut
        exact absurd (hshut.resolve_left Bool.false_ne_true) hopen
  | close hended =>
    exact ⟨List.prefix_refl _, (List.append_nil _).symm, fun _ => ⟨.inr rfl, rfl⟩, .inl⟩

/-- What a step of a client keeps. -/
theorem ClientPeer.Step.lawful {p p' : ClientPeer} {d : ByteString} {e : Bool} (hstep : Step p d e p') :
    p.state.accepted <+: p'.state.accepted ∧ p'.state.delivered = p.state.delivered ++ d ∧
    (p.stage = .gone → p'.stage = .gone ∧ p'.state.accepted = p.state.accepted) ∧
    (p'.state.eof = true → p.state.eof = true ∨ e = true) := by
  cases hstep with
  | round x hrunning hfits =>
    have honward := (Client.round_onward p.state x.1 x.2).lastState
    refine ⟨honward.accepted, ?_, fun hgone => ?_, .inr⟩
    · obtain ⟨more, hmore⟩ := honward.delivered
      have hround : (p.round x).state.delivered = p.state.delivered ++ more := hmore.symm
      rw [hround, List.drop_left]
    · cases hrunning.symm.trans hgone
  | close hopen => exact ⟨List.prefix_refl _, (List.append_nil _).symm, fun h => absurd h hopen, .inl⟩

/-- A session has handed out a begin of what it owes for what was read, and what was read is what `s += &buf[0]` has
    appended: all of it, as long as the server is running, and when the end of file has been read. -/
structure Hub.Sound (h : Hub) : Prop where
  accepted : ∀ p, (h.world.wire p).accepted <+: reversedSentences (h.world.wire p).received
  received : ∀ p, (h.world.wire p).received <+: appended (h.chunks p)
  running : h.stage = .running → ∀ p, (h.world.wire p).received = appended (h.chunks p)
  stopped : ∀ p, h.world.isEof p = true → (h.world.wire p).received = appended (h.chunks p)
  sizes : ∀ p, ∀ chunk ∈ h.chunks p, 1 ≤ chunk.bytes.length ∧ chunk.bytes.length ≤ 3

theorem reversedSentences_begin {xs ys : ByteString} (h : xs <+: ys) : reversedSentences xs <+: reversedSentences ys := by
  obtain ⟨more, rfl⟩ := h
  rw [reversedSentences_append]
  exact List.prefix_append _ _

theorem Call.Delivers.text {id : ConnId} {calls : ReadCalls} {writeCalls : WriteCalls} {chunks : List Drain.Chunk}
    (h : (Call.canRead id calls writeCalls).Delivers chunks) : calls.text = appended chunks := by
  rw [ReadCalls.text, h.1]
  rfl

theorem Call.Delivers.sizes {call : Call} {chunks : List Drain.Chunk} (h : call.Delivers chunks) :
    ∀ chunk ∈ chunks, 1 ≤ chunk.bytes.length ∧ chunk.bytes.length ≤ 3 := by
  cases call with
  | canRead id calls writeCalls => exact h.2
  | newConnection _ | connectionFails _ | canWrite _ _ | errorOccurred _ | timeToExit _ =>
    obtain rfl : chunks = [] := h
    simp

theorem World.Good.accepted {w : World} (h : w.Good) {p : SessionPtr} {s : Session} (hs : w.objects[p]? = some s) (n : Nat) :
    s.wire.accepted ++ s.output.take n <+: reversedSentences s.wire.received := by
  rw [← (h.faithful s (List.mem_of_getElem? hs)).output]
  exact List.prefix_append_right_inj _ |>.mpr (List.take_prefix n s.output)

/-- What was read for one session after a call. -/
theorem Hub.received_after {h : Hub} (hrunning : h.stage = .running) {call : Call} {chunks : List Drain.Chunk}
    (hdelivers : call.Delivers chunks) (p : SessionPtr) :
    ((h.after hrunning call chunks).world.wire p).received =
      (h.world.wire p).received ++ appended (h.arrives call chunks p) ∨
    ((h.after hrunning call chunks).world.wire p).received = (h.world.wire p).received ∧
      (h.after hrunning call chunks).stage ≠ .running ∧ (h.after hrunning call chunks).world.isEof p = h.world.isEof p := by
  have hnothing : h.world.target call ≠ some p → appended (h.arrives call chunks p) = [] := by
    intro htarget
    rw [arrives, if_neg htarget]
    rfl
  cases (h.good hrunning).moves call p with
  | idle hread hwire heof hclosed =>
    by_cases htarget : h.world.target call = some p
    · refine .inr ⟨congrArg Wire.received hwire, ?_, heof⟩
      have hstage : (h.after hrunning call chunks).stage = .ended := if_neg (by rw [hread htarget]; exact Bool.false_ne_true)
      rw [hstage]
      exact Stage.noConfusion
    · refine .inl ?_
      rw [hnothing htarget, List.append_nil]
      exact congrArg Wire.received hwire
  | @read id calls writeCalls hcall hid hclosed hreceived haccepted heof =>
    subst hcall
    have htarget : h.world.target (.canRead id calls writeCalls) = some p := hid
    rw [arrives, if_pos htarget]
    exact .inl (hdelivers.text ▸ hreceived)
  | write n htarget hs hclosed hreceived haccepted heof =>
    refine .inl ?_
    rw [hnothing (by rw [htarget]; exact Option.some_ne_none p ∘ Eq.symm), List.append_nil]
    exact hreceived

/-- What one session has handed out after a call. -/
theorem Hub.accepted_after {h : Hub} (hrunning : h.stage = .running) (call : Call) (chunks : List Drain.Chunk)
    {p : SessionPtr} (haccepted : (h.world.wire p).accepted <+: reversedSentences (h.world.wire p).received) :
    ((h.after hrunning call chunks).world.wire p).accepted <+:
      reversedSentences ((h.after hrunning call chunks).world.wire p).received := by
  have hmoves := (h.good hrunning).moves call p
  generalize hw : worldAfter (call.exec.run h.world) = w' at hmoves
  show ((worldAfter (call.exec.run h.world)).wire p).accepted <+:
    reversedSentences ((worldAfter (call.exec.run h.world)).wire p).received
  rw [hw]
  cases hmoves with
  | idle hread hwire heof hclosed =>
    rw [hwire]
    exact haccepted
  | read hcall hid hclosed hreceived haccepted' heof =>
    rw [hreceived, haccepted']
    exact haccepted.trans (reversedSentences_begin (List.prefix_append _ _))
  | write n htarget hs hclosed hreceived haccepted' heof =>
    rw [hreceived, haccepted', World.wire_of_object hs]
    exact (h.good hrunning).accepted hs n

theorem Hub.Sound.after {h : Hub} (hs : h.Sound) (hrunning : h.stage = .running) {call : Call}
    {chunks : List Drain.Chunk} (hdelivers : call.Delivers chunks)
    (hlast : ∀ p, h.world.isEof p = true → delivered (h.arrives call chunks p) = []) :
    (h.after hrunning call chunks).Sound := by
  have hall : ∀ p, ((h.after hrunning call chunks).world.wire p).received = (h.world.wire p).received ++
      appended (h.arrives call chunks p) → ((h.after hrunning call chunks).world.wire p).received =
      appended ((h.after hrunning call chunks).chunks p) := by
    intro p heq
    rw [heq, hs.running hrunning p]
    exact appended_append.symm
  have hsizes : ∀ p, ∀ chunk ∈ h.arrives call chunks p, 1 ≤ chunk.bytes.length ∧ chunk.bytes.length ≤ 3 := by
    intro p chunk hchunk
    rw [arrives] at hchunk
    split at hchunk
    · exact hdelivers.sizes chunk hchunk
    · cases hchunk
  refine ⟨fun p => Hub.accepted_after hrunning call chunks (hs.accepted p), fun p => ?_, fun hstage p => ?_,
    fun p heof => ?_, fun p chunk hchunk => ?_⟩
  · rcases Hub.received_after hrunning hdelivers p with heq | ⟨heq, -⟩
    · exact (hall p heq) ▸ List.prefix_refl _
    · rw [heq]
      exact (hs.received p).trans (appended_append ▸ List.prefix_append _ _)
  · rcases Hub.received_after hrunning hdelivers p with heq | ⟨-, hends, -⟩
    · exact hall p heq
    · exact absurd hstage hends
  · rcases Hub.received_after hrunning hdelivers p with heq | ⟨heq, -, hsame⟩
    · exact hall p heq
    · -- The end of file was read before, so nothing has arrived.
      have hnone : h.arrives call chunks p = [] := by
        refine List.eq_nil_iff_forall_not_mem.mpr fun chunk hchunk => ?_
        have hempty := List.flatten_eq_nil_iff.mp (hlast p (hsame ▸ heof)) _ (List.mem_map_of_mem hchunk)
        have hlength := (hsizes p chunk hchunk).1
        rw [hempty] at hlength
        exact absurd hlength (by decide)
      refine hall p ?_
      rw [hnone, heq]
      exact (List.append_nil _).symm
  · rcases List.mem_append.mp hchunk with hold | hnew
    · exact hs.sizes p chunk hold
    · exact hsizes p chunk hnew

theorem ClientPeer.Step.kept {p p' : ClientPeer} {d : ByteString} {e : Bool} (hstep : Step p d e p')
    (h : p.state.Kept) : p'.state.Kept := by
  cases hstep with
  | round x hrunning hfits => exact (Client.round_keeps x.1 hfits).lastState h
  | close => exact h

/-! ### Server and clients -/

/-- The server of a state. -/
def hub (n : Net (Option Nat) UInt8 Party) : Hub := n.party none

/-- The client with the number `c`. -/
def client (n : Net (Option Nat) UInt8 Party) (c : Nat) : ClientPeer := n.party (some c)

section Service
variable {isOpen : Fd → Bool} {n : Net (Option Nat) UInt8 Party} {c : Nat}

/-- What a client has read and what is on its way to it is what its session has handed out. -/
theorem client_got_link (h : service.Faithful n) :
    (client n c).state.delivered ++ n.link none (some c) = ((hub n).world.wire c).accepted :=
  h.conserved none (some c)

/-- What one client sees of the service. What its session has read is `appended`: that is what was delivered unless a
    buffer was filled and has a string behind it. -/
structure Served (n : Net (Option Nat) UInt8 Party) (c : Nat) : Prop where
  typed : delivered ((hub n).chunks c) ++ n.link (some c) none ++ (client n c).state.r = (client n c).state.text
  whole : appended ((hub n).chunks c) = delivered ((hub n).chunks c) ↔
    ∀ chunk ∈ (hub n).chunks c, chunk.bytes.length = 3 → CString.content chunk.behind = []
  replies : (client n c).state.received <+: reversedSentences (appended ((hub n).chunks c))
  ownReplies : (∀ chunk ∈ (hub n).chunks c, chunk.bytes.length = 3 → CString.content chunk.behind = []) →
    (client n c).state.received <+: reversedSentences (client n c).state.text
  conserved : (hub n).stage = .running → ∀ s, (hub n).world.objects[c]? = some s →
    (client n c).state.received ++ n.link none (some c) ++ s.output = reversedSentences (appended ((hub n).chunks c))
  peerClosed : .peerClosed ∈ (client n c).state.printed →
    ((hub n).world.isClosed c = true ∨ (hub n).stage = .gone) ∧
      (client n c).state.received = ((hub n).world.wire c).accepted
  eof : (hub n).world.isEof c = true → (client n c).stage = .gone ∧
    delivered ((hub n).chunks c) = (client n c).state.accepted ∧
    ((hub n).world.wire c).received = appended ((hub n).chunks c)

end Service

end EdgeTriggered
