import CppProgramming.Iocp.Server
import CppProgramming.Lib.Holdings

/-! # Who holds a context

A context is in one hand at a time: that of the operation posted for it, of a completion packet, or of the thread
that takes it from a packet to the next operation. A step passes the context of one hand on. -/

namespace Iocp
open Interleaving Holdings

/-! ### Steps -/

/-- What a thread may do, with what it found. -/
inductive Step (s : Shared) : Thread → Act → Thread → Prop
  | acceptLoop {pc : AcceptPc} : pc = .finished ∨ pc = .wait → Step s (.accept .loop) .look (.accept pc)
  | acceptWait {pc : AcceptPc} : pc = .create ∨ pc = .loop → Step s (.accept .wait) .look (.accept pc)
  | create {id : UInt32} : firstFree s.clientContexts (2 ^ 32) s.id = some id →
      Step s (.accept .create) (.create id) (.accept (.associate s.contexts.length))
  | associate {p : ContextPtr} : Step s (.accept (.associate p)) .look (.accept (.prepare p))
  | associateFailed {p : ContextPtr} : Step s (.accept (.associate p)) .associateFailed (.accept .loop)
  | prepare {p : ContextPtr} {c : ClientContext} : s.contexts[p]? = some c →
      Step s (.accept (.prepare p))
        (.assign p { c with wsaBuf := ⟨0, UInt32.ofNat c.buffer.length⟩, lastOption := .recv }) (.accept (.recv p))
  | acceptRecv {p : ContextPtr} {c : ClientContext} : s.contexts[p]? = some c →
      Step s (.accept (.recv p)) (.post ⟨.recv, p, c.id, c.wsaBuf⟩) (.accept .loop)
  | acceptRecvFailed {p : ContextPtr} {c : ClientContext} : s.contexts[p]? = some c →
      Step s (.accept (.recv p)) .look (.accept (.remove c.id p))
  | acceptRemove {id : UInt32} {p : ContextPtr} : Step s (.accept (.remove id p)) (.erase id) (.accept .loop)
  | poolLoop {pc : PoolPc} : pc = .finished ∨ pc = .getStatus → Step s (.pool .loop) .look (.pool pc)
  | failed {packet : Packet} {port : List Packet} : s.port = packet :: port → packet.result = false →
      Step s (.pool .getStatus) .dequeueFailed (.pool .loop)
  | woken {packet : Packet} {port : List Packet} : s.port = packet :: port → packet.result = true →
      packet.key = invalidClientContextId → Step s (.pool .getStatus) .dequeue (.pool .loop)
  | ended {packet : Packet} {port : List Packet} : s.port = packet :: port → packet.result = true →
      packet.key ≠ invalidClientContextId → packet.numberOfBytes = 0 →
      Step s (.pool .getStatus) .dequeue (.pool (.remove packet.key packet.overlapped))
  | transferred {packet : Packet} {port : List Packet} : s.port = packet :: port → packet.result = true →
      packet.key ≠ invalidClientContextId → packet.numberOfBytes ≠ 0 →
      Step s (.pool .getStatus) .dequeue (.pool (.lookup packet.key packet.numberOfBytes packet.overlapped))
  | found {key n : UInt32} {q : Option ContextPtr} {p : ContextPtr} : s.clientContexts[key]? = some p →
      Step s (.pool (.lookup key n q)) .look (.pool (.handle p n))
  | missing {key n : UInt32} {q : Option ContextPtr} : s.clientContexts[key]? = none →
      Step s (.pool (.lookup key n q)) .look (.pool .loop)
  | received {p : ContextPtr} {n : UInt32} {c : ClientContext} : s.contexts[p]? = some c → c.lastOption = .recv →
      Step s (.pool (.handle p n))
        (.assign p
          { c with
            lastOption := .send
            numberOfBytesToSend := n
            numberOfBytesSent := 0
            wsaBuf := { c.wsaBuf with len := n } })
        (.pool (.send p { c.wsaBuf with len := n }))
  | sentPart {p : ContextPtr} {n : UInt32} {c : ClientContext} : s.contexts[p]? = some c → c.lastOption = .send →
      c.numberOfBytesSent + n < c.numberOfBytesToSend →
      Step s (.pool (.handle p n))
        (.assign p { c with lastOption := .send, numberOfBytesSent := c.numberOfBytesSent + n })
        (.pool (.send p ⟨(c.numberOfBytesSent + n).toNat, c.numberOfBytesToSend - (c.numberOfBytesSent + n)⟩))
  | sentAll {p : ContextPtr} {n : UInt32} {c : ClientContext} : s.contexts[p]? = some c → c.lastOption = .send →
      ¬c.numberOfBytesSent + n < c.numberOfBytesToSend →
      Step s (.pool (.handle p n))
        (.assign p { c with lastOption := .recv, numberOfBytesSent := c.numberOfBytesSent + n })
        (.pool (.recv p ⟨0, UInt32.ofNat c.buffer.length⟩))
  | unknown {p : ContextPtr} {n : UInt32} {c : ClientContext} : s.contexts[p]? = some c → c.lastOption = .none →
      Step s (.pool (.handle p n)) .look (.pool .loop)
  | send {p : ContextPtr} {buf : WsaBuf} {c : ClientContext} : s.contexts[p]? = some c →
      Step s (.pool (.send p buf)) (.post ⟨.send, p, c.id, buf⟩) (.pool .loop)
  | sendFailed {p : ContextPtr} {buf : WsaBuf} {c : ClientContext} : s.contexts[p]? = some c →
      Step s (.pool (.send p buf)) .look (.pool (.remove c.id (some p)))
  | recv {p : ContextPtr} {buf : WsaBuf} {c : ClientContext} : s.contexts[p]? = some c →
      Step s (.pool (.recv p buf)) (.post ⟨.recv, p, c.id, buf⟩) (.pool .loop)
  | recvFailed {p : ContextPtr} {buf : WsaBuf} {c : ClientContext} : s.contexts[p]? = some c →
      Step s (.pool (.recv p buf)) .look (.pool (.remove c.id (some p)))
  | poolRemove {key : UInt32} {q : Option ContextPtr} : Step s (.pool (.remove key q)) (.erase key) (.pool .loop)
  | completeRecv {i : Nat} {o : Overlapped} {result : Bool} {data : ByteString} : s.posted[i]? = some o →
      o.operation = .recv → data.length ≤ o.buf.len.toNat → Step s .kernel (.completeRecv i o result data) .kernel
  | completeSend {i : Nat} {o : Overlapped} {result : Bool} {n : Nat} : s.posted[i]? = some o →
      o.operation = .send → n ≤ o.buf.len.toNat → Step s .kernel (.completeSend i o result n) .kernel
  | stop {n : Nat} : Step s (.stop false n) .stop (.stop true n)
  | wake {n : Nat} : Step s (.stop true (n + 1)) .wake (.stop true n)
  | wakeFailed {n : Nat} : Step s (.stop true (n + 1)) .wakeFailed (.stop true n)

section Inversion
variable {s : Shared} {o : Choice} {a : Act}

theorem AcceptPc.step_cases {pc pc' : AcceptPc} (h : pc.step s o = some (a, pc')) :
    Step s (.accept pc) a (.accept pc') := by
  cases pc with
  | loop =>
    cases h
    exact .acceptLoop (by split <;> simp)
  | wait =>
    simp only [AcceptPc.step] at h
    split at h
    · cases h
      exact .acceptWait (.inl rfl)
    · cases h
      exact .acceptWait (.inr rfl)
    · cases h
  | create =>
    simp only [AcceptPc.step] at h
    split at h
    · next id hid =>
      cases h
      exact .create hid
    · cases h
  | associate p =>
    simp only [AcceptPc.step] at h
    split at h
    · cases h
      exact .associate
    · cases h
      exact .associateFailed
    · cases h
  | prepare p =>
    simp only [AcceptPc.step] at h
    split at h
    · next c hc =>
      cases h
      exact .prepare hc
    · cases h
  | recv p =>
    simp only [AcceptPc.step] at h
    split at h
    · next c hc =>
      cases h
      exact .acceptRecv hc
    · next c hc =>
      cases h
      exact .acceptRecvFailed hc
    · cases h
  | remove id p =>
    cases h
    exact .acceptRemove
  | finished => cases h

theorem PoolPc.step_cases {pc pc' : PoolPc} (h : pc.step s o = some (a, pc')) : Step s (.pool pc) a (.pool pc') := by
  cases pc with
  | loop =>
    cases h
    exact .poolLoop (by split <;> simp)
  | getStatus =>
    simp only [PoolPc.step] at h
    split at h
    · cases h
    · next packet port hport =>
      split at h
      · next hresult =>
        cases h
        exact .failed hport (by simpa using hresult)
      · next hresult =>
        have hresult : packet.result = true := by simpa using hresult
        split at h
        · next hkey =>
          cases h
          exact .woken hport hresult (by simpa using hkey)
        · next hkey =>
          have hkey : packet.key ≠ invalidClientContextId := by simpa using hkey
          split at h
          · next hn =>
            cases h
            exact .ended hport hresult hkey (by simpa using hn)
          · next hn =>
            cases h
            exact .transferred hport hresult hkey (by simpa using hn)
  | lookup key n q =>
    simp only [PoolPc.step] at h
    split at h
    · next p hp =>
      cases h
      exact .found hp
    · next hp =>
      cases h
      exact .missing hp
  | handle p n =>
    simp only [PoolPc.step] at h
    split at h
    · cases h
    · next c hc =>
      split at h
      · next hlast =>
        cases h
        exact .received hc hlast
      · next hlast =>
        split at h
        · next hlt =>
          cases h
          exact .sentPart hc hlast hlt
        · next hlt =>
          cases h
          exact .sentAll hc hlast hlt
      · next hlast =>
        cases h
        exact .unknown hc hlast
  | send p buf =>
    simp only [PoolPc.step] at h
    split at h
    · next c hc =>
      cases h
      exact .send hc
    · next c hc =>
      cases h
      exact .sendFailed hc
    · cases h
  | recv p buf =>
    simp only [PoolPc.step] at h
    split at h
    · next c hc =>
      cases h
      exact .recv hc
    · next c hc =>
      cases h
      exact .recvFailed hc
    · cases h
  | remove key q =>
    cases h
    exact .poolRemove
  | finished => cases h

theorem kernelStep_cases (h : kernelStep s o = some a) : Step s .kernel a .kernel := by
  cases o with
  | go => cases h
  | result ok => cases h
  | complete i result data n =>
    simp only [kernelStep] at h
    split at h
    · cases h
    · next o ho =>
      split at h
      · next hop =>
        split at h
        · next hle =>
          cases h
          exact .completeRecv ho hop hle
        · cases h
      · next hop =>
        split at h
        · next hle =>
          cases h
          exact .completeSend ho hop hle
        · cases h

theorem Thread.step_cases {t t' : Thread} (h : t.step s o = some (a, t')) : Step s t a t' := by
  cases t with
  | accept pc =>
    obtain ⟨x, hx, heq⟩ := Option.map_eq_some_iff.mp h
    cases heq
    exact AcceptPc.step_cases hx
  | pool pc =>
    obtain ⟨x, hx, heq⟩ := Option.map_eq_some_iff.mp h
    cases heq
    exact PoolPc.step_cases hx
  | kernel =>
    obtain ⟨x, hx, heq⟩ := Option.map_eq_some_iff.mp h
    cases heq
    exact kernelStep_cases hx
  | stop isSet n =>
    cases isSet with
    | false =>
      cases h
      exact .stop
    | true =>
      cases n with
      | zero => cases h
      | succ n =>
        simp only [Thread.step] at h
        split at h
        · cases h
          exact .wake
        · cases h
          exact .wakeFailed
        · cases h

end Inversion

/-! ### Hands -/

/-- How far a context has come: before its first receive, with its first receive prepared, with a receive or a send
    to be posted or posted, with a transfer of `n` bytes to be handled, or with nothing to come. -/
inductive Stage where
  | fresh
  | first
  | recv (buf : WsaBuf)
  | send (buf : WsaBuf)
  | done (n : UInt32)
  | last

/-- A context that is held, with the key under which the holder knows it. -/
abbrev Hand := ContextPtr × (Option UInt32 × Stage)

/-- What an outstanding operation has in hand. -/
def Overlapped.hand (o : Overlapped) : Hand :=
  match o.operation with
  | .recv => (o.overlapped, some o.key, .recv o.buf)
  | .send => (o.overlapped, some o.key, .send o.buf)

/-- What a packet has in hand. -/
def Packet.hand (packet : Packet) : Option Hand :=
  packet.overlapped.map fun p => (p, some packet.key, if packet.result then .done packet.numberOfBytes else .last)

/-- What the accepting thread has in hand. -/
def AcceptPc.hand : AcceptPc → Option Hand
  | .associate p | .prepare p => some (p, none, .fresh)
  | .recv p => some (p, none, .first)
  | .remove id p => some (p, some id, .last)
  | _ => none

/-- What a thread of the pool has in hand. -/
def PoolPc.hand : PoolPc → Option Hand
  | .lookup key n q => q.map fun p => (p, some key, .done n)
  | .handle p n => some (p, none, .done n)
  | .send p buf => some (p, none, .send buf)
  | .recv p buf => some (p, none, .recv buf)
  | .remove key q => q.map fun p => (p, some key, .last)
  | _ => none

/-- What a thread has in hand. -/
def Thread.hand : Thread → Option Hand
  | .accept pc => pc.hand
  | .pool pc => pc.hand
  | _ => none

/-- The hands of the kernel. -/
def Shared.hands (s : Shared) : List Hand := s.posted.map Overlapped.hand ++ s.port.filterMap Packet.hand

/-- All hands. -/
def hands (s : Config Shared Thread) : List Hand := s.gather Thread.hand ++ s.shared.hands

/-- The hands of the kernel that a step takes. -/
def Act.takes (s : Shared) : Act → List Hand
  | .dequeue | .dequeueFailed => (s.port.head?.bind Packet.hand).toList
  | .completeRecv _ o _ _ | .completeSend _ o _ _ => [o.hand]
  | _ => []

/-- The hands of the kernel that a step adds. -/
def Act.gives : Act → List Hand
  | .post o => [o.hand]
  | .completeRecv _ o result data =>
    [(o.overlapped, some o.key, if result then .done (UInt32.ofNat data.length) else .last)]
  | .completeSend _ o result n => [(o.overlapped, some o.key, if result then .done (UInt32.ofNat n) else .last)]
  | _ => []

theorem Shared.hands_posted {s : Shared} {i : Nat} {o : Overlapped} (h : s.posted[i]? = some o) :
    s.hands.Perm (o.hand :: ((s.posted.eraseIdx i).map Overlapped.hand ++ s.port.filterMap Packet.hand)) := by
  obtain ⟨hlt, rfl⟩ := List.getElem?_eq_some_iff.mp h
  have hperm := (List.getElem_cons_eraseIdx_perm hlt).symm.map Overlapped.hand
  exact hperm.append_right _

theorem Shared.hands_port {s : Shared} {packet : Packet} {port : List Packet} (h : s.port = packet :: port) :
    s.hands.Perm (packet.hand.toList ++ (s.posted.map Overlapped.hand ++ port.filterMap Packet.hand)) := by
  have hcons : (packet :: port).filterMap Packet.hand = packet.hand.toList ++ port.filterMap Packet.hand := by
    cases hp : packet.hand <;> simp [hp]
  rw [Shared.hands, h, hcons, ← List.append_assoc, ← List.append_assoc]
  exact List.perm_append_comm.append_right _

theorem Shared.hands_post {s : Shared} (o : Overlapped) : (Act.apply (.post o) s).hands.Perm (o.hand :: s.hands) := by
  simp only [Shared.hands, Act.apply, List.map_append, List.map_cons, List.map_nil, List.append_assoc]
  exact List.perm_middle

theorem Shared.hands_deliver {posted : List Overlapped} {port : List Packet} (packet : Packet) :
    (posted.map Overlapped.hand ++ (port ++ [packet]).filterMap Packet.hand).Perm
      (packet.hand.toList ++ (posted.map Overlapped.hand ++ port.filterMap Packet.hand)) := by
  have hone : [packet].filterMap Packet.hand = packet.hand.toList := by
    cases hp : packet.hand <;> simp [hp]
  rw [List.filterMap_append, hone, ← List.append_assoc]
  exact List.perm_append_comm

theorem Shared.hands_congr {s s' : Shared} (hposted : s'.posted = s.posted) (hport : s'.port = s.port) :
    s'.hands = s.hands := by
  rw [Shared.hands, Shared.hands, hposted, hport]

theorem Shared.hands_dequeue {s s' : Shared} {packet : Packet} {port : List Packet} (hport : s.port = packet :: port)
    (hposted : s'.posted = s.posted) (htail : s'.port = s.port.tail) :
    s.hands.Perm ((s.port.head?.bind Packet.hand).toList ++ s'.hands) := by
  rw [hport, List.tail_cons] at htail
  have hs' : s'.hands = s.posted.map Overlapped.hand ++ port.filterMap Packet.hand := by
    rw [Shared.hands, hposted, htail]
  rw [hs', hport]
  exact Shared.hands_port hport

/-- What a step does to the hands of the kernel. -/
theorem Step.shared_hands {s : Shared} {t t' : Thread} {a : Act} (h : Step s t a t') :
    ∃ rest, s.hands.Perm (a.takes s ++ rest) ∧ (a.apply s).hands.Perm (a.gives ++ rest) := by
  cases h with
  | acceptRecv hc => exact ⟨s.hands, .refl _, Shared.hands_post _⟩
  | send hc => exact ⟨s.hands, .refl _, Shared.hands_post _⟩
  | recv hc => exact ⟨s.hands, .refl _, Shared.hands_post _⟩
  | failed hport hresult => exact ⟨(Act.apply .dequeueFailed s).hands, Shared.hands_dequeue hport rfl rfl, .refl _⟩
  | woken hport hresult hkey => exact ⟨(Act.apply .dequeue s).hands, Shared.hands_dequeue hport rfl rfl, .refl _⟩
  | ended hport hresult hkey hn => exact ⟨(Act.apply .dequeue s).hands, Shared.hands_dequeue hport rfl rfl, .refl _⟩
  | transferred hport hresult hkey hn => exact ⟨(Act.apply .dequeue s).hands, Shared.hands_dequeue hport rfl rfl, .refl _⟩
  | completeRecv ho hop hle => exact ⟨_, Shared.hands_posted ho, Shared.hands_deliver _⟩
  | completeSend ho hop hle => exact ⟨_, Shared.hands_posted ho, Shared.hands_deliver _⟩
  | wake => exact ⟨_, .refl _, Shared.hands_deliver ⟨true, 0, invalidClientContextId, none⟩⟩
  | _ => exact ⟨s.hands, .refl _, .of_eq (Shared.hands_congr rfl rfl)⟩

theorem filterMap_eraseIdx_perm {α β : Type} (f : α → Option β) {l : List α} {i : Nat} {x : α} (h : l[i]? = some x) :
    (l.filterMap f).Perm ((f x).toList ++ (l.eraseIdx i).filterMap f) := by
  obtain ⟨hlt, rfl⟩ := List.getElem?_eq_some_iff.mp h
  have hcons : (l[i] :: l.eraseIdx i).filterMap f = (f l[i]).toList ++ (l.eraseIdx i).filterMap f := by
    cases hf : f l[i] <;> simp [hf]
  rw [← hcons]
  exact ((List.getElem_cons_eraseIdx_perm hlt).symm).filterMap f

/-- What a step does to all hands: those of the thread and of the kernel that it takes give way to those that it
    leaves. -/
theorem Step.hands {s : Config Shared Thread} {i : Nat} {t t' : Thread} {a : Act} (hi : s.threads[i]? = some t)
    (h : Step s.shared t a t') :
    ∃ rest, (hands s).Perm ((t.hand.toList ++ a.takes s.shared) ++ rest) ∧
      (Iocp.hands ⟨a.apply s.shared, s.threads.set i t'⟩).Perm ((t'.hand.toList ++ a.gives) ++ rest) := by
  obtain ⟨rest, hbefore, hafter⟩ := h.shared_hands
  obtain ⟨hlt, -⟩ := List.getElem?_eq_some_iff.mp hi
  have hset : (s.threads.set i t')[i]? = some t' := by simp [hlt]
  have hswap : ∀ {l₁ l₂ l₃ l₄ : List Hand}, ((l₁ ++ l₂) ++ (l₃ ++ l₄)).Perm ((l₁ ++ l₃) ++ (l₂ ++ l₄)) := by
    intro l₁ l₂ l₃ l₄
    rw [List.append_assoc, List.append_assoc]
    refine List.Perm.append_left _ ?_
    rw [← List.append_assoc, ← List.append_assoc]
    exact List.perm_append_comm.append_right _
  refine ⟨(s.threads.eraseIdx i).filterMap Thread.hand ++ rest, ?_, ?_⟩
  · exact ((filterMap_eraseIdx_perm Thread.hand hi).append hbefore).trans hswap
  · have herase := filterMap_eraseIdx_perm Thread.hand hset
    rw [List.eraseIdx_set_eq] at herase
    exact (herase.append hafter).trans hswap

end Iocp
