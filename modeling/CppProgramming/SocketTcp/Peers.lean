import CppProgramming.Lib.Streams
import CppProgramming.SocketTcp.Hearing

/-! # Two tools that are connected

Two processes of the tool at the ends of one connection, each compiled in one of the variants and started with its own
flags. What one of them writes is on its way until the other reads it, in pieces of any size. The user of each types what
he likes, and the processes take their rounds in any order. -/

namespace SocketTcp
open Streams

/-- How the tool is compiled, with the descriptor of the connection. -/
inductive Variant where
  | poll
  | select (fd : Nat)
  deriving DecidableEq, Repr

namespace Variant

/-- What the variant waits for. -/
def Wait : Variant → Type
  | poll => Poll.Fds
  | select _ => Select.Sets

/-- What the call that waits returns. -/
def Ready : Variant → Type
  | poll => BitVec 16 × BitVec 16
  | select _ => Select.FdSet × Select.FdSet

/-- The loop of the program. -/
def loop : ∀ v : Variant, Loop v.Wait v.Ready
  | poll => Poll.loop
  | select fd => Select.loop fd

/-- What its rounds are made of. -/
def parts : ∀ v : Variant, v.loop.Parts
  | poll => Poll.parts
  | select fd => Select.parts fd

/-- The socket is read in a round that is begun in the state. -/
def readable : ∀ v : Variant, State v.Wait → Except Int v.Ready → Bool
  | poll => fun _ => Poll.readable
  | select fd => Select.readable fd

theorem lawful : ∀ v : Variant, v.loop.Lawful
  | poll => Poll.lawful
  | select fd => Select.lawful fd

theorem hears : ∀ v : Variant, v.parts.Hears v.readable
  | poll => Poll.hears
  | select fd => Select.hears fd

theorem start_silent : ∀ (v : Variant) (config : Config) (setup : Setup), KeepsSilent (v.loop.start config setup)
  | poll => Poll.start_silent
  | select fd => Select.start_silent fd

end Variant

/-- How far a process is. -/
inductive Status where
  | running
  | ended (e : Ending)
  -- The process has gone, and its socket with it.
  | closed (e : Ending)
  deriving DecidableEq, Repr

/-- The process has closed its sockets. -/
def Status.isClosed : Status → Bool
  | closed _ => true
  | _ => false

/-- How far a process is behind a function. -/
def status {ι : Type} : EStateM.Result Ending (State ι) Unit → Status
  | .ok _ _ => .running
  | .error e _ => .ended e

/-- One end of the connection: the variables of `Process`, how far it is, and the bytes that `read` has delivered from
    the socket. -/
structure Peer (v : Variant) where
  state : State v.Wait
  status : Status
  got : ByteString := []

namespace Peer
variable {v : Variant}

/-- `Process` in front of its loop. -/
def start (v : Variant) (config : Config) (setup : Setup) : Peer v where
  state := lastState ((v.loop.start config setup).run { wait := v.loop.wait })
  status := SocketTcp.status ((v.loop.start config setup).run { wait := v.loop.wait })

/-- What `read` delivers from the socket in a round. -/
def arrives (p : Peer v) (x : Except Int v.Ready × Calls) : ByteString :=
  if v.readable p.state x.1 then (x.2.socket.chunks.map Drain.Chunk.bytes).flatten else []

/-- `read` returns 0 on the socket in a round, and not because reading has been shut on this side. -/
def told (p : Peer v) (x : Except Int v.Ready × Calls) : Bool :=
  v.readable p.state x.1 && x.2.socket.stop = .eof && !p.state.readShut

/-- What has been put into the connection is all that there will be. -/
def shut (p : Peer v) : Bool :=
  p.state.writeShutdown || p.status.isClosed

/-- After a round. -/
def round (p : Peer v) (x : Except Int v.Ready × Calls) : Peer v where
  state := lastState ((v.loop.round x.1 x.2).run p.state)
  status := SocketTcp.status ((v.loop.round x.1 x.2).run p.state)
  got := p.got ++ p.arrives x

/-- A round of `Process`, or the end of the process. `read` delivers at most what there is room for, and the socket
    accepts nothing once writing is shut. -/
inductive Step : Peer v → ByteString → Bool → Peer v → Prop
  | round {p : Peer v} (x : Except Int v.Ready × Calls) : p.status = .running →
      (∀ chunk ∈ x.2.socket.chunks ++ x.2.stdin.chunks, chunk.bytes.length ≤ bufSize) →
      ((p.round x).state.writeShutdown = true → (p.round x).state.accepted = p.state.accepted) →
      Step p (p.arrives x) (p.told x) (p.round x)
  | close {p : Peer v} {e : Ending} : p.status = .ended e → Step p [] false { p with status := .closed e }

end Peer

/-- What is read has no zero in it, or ends there. -/
theorem content_flatten {chunks : List Drain.Chunk} (h : 0 ∉ (chunks.map Drain.Chunk.bytes).flatten) :
    (chunks.map fun chunk => CString.content chunk.bytes).flatten = (chunks.map Drain.Chunk.bytes).flatten := by
  rw [CString.flatten_map_eq_iff fun chunk _ => CString.content_begin]
  intro chunk hchunk
  refine CString.content_eq_self_iff.mpr fun hzero => h ?_
  exact List.mem_flatten.mpr ⟨chunk.bytes, List.mem_map_of_mem hchunk, hzero⟩

namespace Peer
variable {v : Variant} {config : Config} {p : Peer v} {x : Except Int v.Ready × Calls}

/-- What is read in a round is printed, unless the round ends `Process`; "read stop" is printed when `read` returns 0. -/
structure Rounded (p : Peer v) (x : Except Int v.Ready × Calls) : Prop where
  accepted : p.state.accepted <+: (p.round x).state.accepted
  writeShutdown : p.state.writeShutdown = true → (p.round x).state.writeShutdown = true
  plain : p.state.Plain → (p.round x).state.Plain
  received : 0 ∉ p.arrives x → (p.round x).state.received = p.state.received ++ p.arrives x ∨
    (p.round x).state.received = p.state.received ∧ (p.round x).status ≠ .running
  readStopped : (p.round x).state.readStopped = true → p.state.readStopped = true ∨ p.told x = true ∧
    (0 ∉ p.arrives x → (p.round x).state.received = p.state.received ++ p.arrives x)

theorem rounded (p : Peer v) (hfits : ∀ chunk ∈ x.2.socket.chunks ++ x.2.stdin.chunks, chunk.bytes.length ≤ bufSize) :
    p.Rounded x := by
  have hsocket : ∀ chunk ∈ x.2.socket.chunks, chunk.bytes.length ≤ bufSize :=
    fun chunk hchunk => hfits chunk (List.mem_append_left _ hchunk)
  have hstdin : ∀ chunk ∈ x.2.stdin.chunks, chunk.bytes.length ≤ bufSize :=
    fun chunk hchunk => hfits chunk (List.mem_append_right _ hchunk)
  rcases v.hears.round_cases p.state hstdin with ⟨hreads, wait, hquiet⟩ | ⟨hreads, d, wait, hread, hquiet⟩ |
      ⟨hreads, code, wait, hbroken⟩
  · obtain ⟨haccepted, hdown, hplain, more, hprinted, hmore⟩ := hquiet
    have harrives : p.arrives x = [] := if_neg (by rw [hreads]; exact Bool.false_ne_true)
    have hreceived : (p.round x).state.received = p.state.received := by
      have happend := received_append (s := p.state) hprinted
      rwa [bytes_quiet hmore, List.append_nil] at happend
    refine ⟨haccepted, hdown, hplain, fun _ => .inl ?_, fun hstop => ?_⟩
    · rw [harrives, List.append_nil]
      exact hreceived
    · rcases readStopped_append (s := p.state) hprinted hstop with hold | ⟨hnew, -⟩
      · exact .inl hold
      · cases hmore _ hnew
  · obtain ⟨haccepted, hdown, hplain, more, hprinted, hmore⟩ := hquiet
    have hprinted : (p.round x).state.printed = p.state.printed ++ (heard d ++ more) := by
      rw [← List.append_assoc]
      exact hprinted
    obtain ⟨hs, heof⟩ := read_ok hsocket hread
    have hreceived : 0 ∉ p.arrives x → (p.round x).state.received = p.state.received ++ p.arrives x := by
      intro hzero
      have harrives : p.arrives x = (x.2.socket.chunks.map Drain.Chunk.bytes).flatten := if_pos hreads
      rw [harrives] at hzero ⊢
      rw [received_append hprinted, List.map_append, List.flatten_append, bytes_heard, bytes_quiet hmore, List.append_nil,
        hs, content_flatten hzero]
    refine ⟨haccepted, hdown, hplain, fun hzero => .inl (hreceived hzero), fun hstop => ?_⟩
    rcases readStopped_append hprinted hstop with hold | ⟨hnew, hopen⟩
    · exact .inl hold
    · refine .inr ⟨?_, hreceived⟩
      have hd : d.eof = true := by
        by_contra hno
        rcases List.mem_append.mp hnew with hheard | hlate
        · rw [heard, if_neg hno, List.append_nil] at hheard
          split at hheard <;> simp at hheard
        · cases hmore _ hlate
      rw [told, hreads, hopen, decide_eq_true (heof.mp hd)]
      rfl
  · have hround : p.round x = ⟨{ p.state with wait := wait }, .ended (.exception code), p.got ++ p.arrives x⟩ := by
      rw [round, hbroken]
      rfl
    constructor
    all_goals rw [hround]
    · exact id
    · exact id
    · exact fun _ => .inr ⟨rfl, Status.noConfusion⟩
    · exact .inl

/-- What one end has sent is of what was typed there, and what it has printed is of what was read there: all of it, as
    long as it is running, and when it has printed "read stop". -/
structure Sound (config : Config) (p : Peer v) : Prop where
  plain : p.state.Plain
  sent : Sent config p.state
  conserved : p.status = .running → Conserved config p.state
  received : p.state.received <+: p.got
  running : p.status = .running → p.state.received = p.got
  stopped : p.state.readStopped = true → p.state.received = p.got

theorem toSend_plain {lines : List ByteString} (h : ∀ line ∈ lines, 0 ∉ line) : 0 ∉ toSend config lines := by
  unfold toSend
  split
  · intro hzero
    obtain ⟨line, hline, hmem⟩ := List.mem_flatten.mp hzero
    exact h line ((List.takeWhile_prefix _).subset (List.mem_of_mem_filter hline)) hmem
  · simp

theorem Sound.accepted (h : p.Sound config) : 0 ∉ p.state.accepted := by
  intro hzero
  have hplain : ∀ line ∈ p.state.lines, 0 ∉ line := by
    intro line hline
    obtain ⟨y, hy, rfl⟩ := List.mem_map.mp hline
    exact h.plain y hy
  exact toSend_plain hplain (h.sent.subset hzero)

theorem round_conserved (h : Conserved config p.state) :
    ((p.round x).status = .running → Conserved config (p.round x).state) ∧ Sent config (p.round x).state := by
  have hspec := v.lawful.round config x.1 x.2 p.state h
  rw [round]
  cases hrun : (v.loop.round x.1 x.2).run p.state with
  | ok _ s' =>
    simp only [Std.Do.wp, Std.Do.PredTrans.apply, hrun] at hspec
    exact ⟨fun _ => hspec.1, hspec.1.sent⟩
  | error e s' =>
    simp only [Std.Do.wp, Std.Do.PredTrans.apply, hrun] at hspec
    exact ⟨Status.noConfusion, hspec⟩

theorem Sound.round (h : p.Sound config) (hrunning : p.status = .running)
    (hfits : ∀ chunk ∈ x.2.socket.chunks ++ x.2.stdin.chunks, chunk.bytes.length ≤ bufSize) (hzero : 0 ∉ p.arrives x)
    (hlast : p.state.readStopped = true → p.arrives x = []) : (p.round x).Sound config := by
  have hround := p.rounded hfits
  obtain ⟨hconserved, hsent⟩ := round_conserved (x := x) (h.conserved hrunning)
  have hgot := h.running hrunning
  have hall : (p.round x).state.received = p.state.received ++ p.arrives x →
      (p.round x).state.received = (p.round x).got := by
    intro heq
    rw [heq, hgot]
    rfl
  refine ⟨hround.plain h.plain, hsent, hconserved, ?_, fun hrun => ?_, fun hstop => ?_⟩
  · rcases hround.received hzero with heq | ⟨heq, -⟩
    · exact (hall heq) ▸ List.prefix_refl _
    · rw [heq, hgot]
      exact List.prefix_append _ _
  · rcases hround.received hzero with heq | ⟨-, hends⟩
    · exact hall heq
    · exact absurd hrun hends
  · rcases hround.readStopped hstop with hold | ⟨-, heq⟩
    · -- Nothing has been read since.
      have hnone := hlast hold
      have hsame : (p.round x).state.received = p.state.received := by
        rcases hround.received hzero with heq | ⟨heq, -⟩
        · rw [heq, hnone, List.append_nil]
        · exact heq
      exact hall (by rw [hsame, hnone, List.append_nil])
    · exact hall (heq hzero)

theorem start_silent (v : Variant) (config : Config) (setup : Setup) : Silent (start v config setup).state :=
  (v.start_silent config setup).lastState ⟨rfl, rfl, by simp⟩

end Peer

/-! ### The connection -/

section Connection
variable {v : Bool → Variant} {config : Bool → Config} {setup : Bool → Setup} {n : Net Bool UInt8 fun i => Peer (v i)}
  {i : Bool}

theorem Peer.Step.lawful {v : Variant} {p p' : Peer v} {d : ByteString} {e : Bool} (h : p.Step d e p') :
    p.state.accepted <+: p'.state.accepted ∧ p'.got = p.got ++ d ∧
    (p.shut = true → p'.shut = true ∧ p'.state.accepted = p.state.accepted) ∧
    (p'.state.readStopped = true → p.state.readStopped = true ∨ e = true) := by
  cases h with
  | round x hrunning hfits hdown =>
    have hround := p.rounded hfits
    refine ⟨hround.accepted, rfl, fun hshut => ?_, fun hstop => ?_⟩
    · have hwrite : p.state.writeShutdown = true := by simpa [Peer.shut, hrunning, Status.isClosed] using hshut
      have hwrite' := hround.writeShutdown hwrite
      exact ⟨by rw [Peer.shut, hwrite', Bool.true_or], hdown hwrite'⟩
    · exact (hround.readStopped hstop).imp id And.left
  | close =>
    refine ⟨List.prefix_refl _, (List.append_nil _).symm, fun _ => ⟨?_, rfl⟩, .inl⟩
    exact Bool.or_true _

/-- The two processes, behind what they do in front of their loops. -/
def starts (v : Bool → Variant) (config : Bool → Config) (setup : Bool → Setup) (i : Bool) : Peer (v i) :=
  Peer.start (v i) (config i) (setup i)

/-- What the user at one end sees of what is typed at the other. -/
structure Sees (config : Bool → Config) (n : Net Bool UInt8 fun i => Peer (v i)) (i : Bool) : Prop where
  received : (n.party i).state.received <+: toSend (config !i) (n.party !i).state.lines
  conserved : (n.party i).status = .running → (n.party !i).status = .running →
    (n.party i).state.received ++ n.link (!i) i ++ (n.party !i).state.w =
      toSend (config !i) (n.party !i).state.lines
  readStop : ∀ before after, (n.party i).state.printed = before ++ .readStop :: after →
    (∃ o ∈ before, o.shutsRead = true) ∨
      (n.party !i).shut = true ∧ (n.party i).state.received = (n.party !i).state.accepted

end Connection

/-- The byte that has arrived at the other end. -/
def reads : Except Int (Variant.Ready (.select 3)) × Calls :=
  (.ok (fun fd => fd = 3, fun _ => false), { typesHi [] with socket := ⟨[⟨[104], []⟩], .again⟩ })

end SocketTcp
