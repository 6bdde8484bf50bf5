import CppProgramming.Lib.CString
import CppProgramming.SimpleHttp.Connection
import CppProgramming.EdgeTriggered.Server

/-! # Drain loops

Three programs read a descriptor until it would block: `SocketHandler::Read` of the HTTP server, `ConnHandler::Read` of
the session server and `Read` of the TCP tool. All of them append the buffer as a C string; only the last one puts a
terminator behind what it has read. -/

namespace Drain
open EdgeTriggered (ReadStop)

/-- What a call of `read` has put into the buffer, and the memory behind the buffer. -/
structure Chunk where
  bytes : ByteString
  behind : ByteString
  deriving DecidableEq, Repr

/-- The string so far, whether `read` has returned 0, and for each `s += &buf[0]` how many bytes from `buf[0]` on it has
    read. -/
structure Drained where
  s : ByteString := []
  eof : Bool := false
  reads : List Nat := []
  deriving DecidableEq, Repr

/-- `s += &buf[0]`. -/
def Drained.append (d : Drained) (memory : ByteString) : Drained :=
  { d with s := d.s ++ CString.content memory, reads := d.reads ++ [CString.reads memory] }

/-- How the loop ends. -/
def Drained.stop (d : Drained) : ReadStop → Except Int Drained
  | .eof => .ok { d with eof := true }
  | .again => .ok d
  | .error code => .error code

/-- The memory from `buf[0]` on, for a buffer of zeros that `read` has put `bytes` into. -/
def Chunk.memory (bufSize : Nat) (chunk : Chunk) : ByteString :=
  chunk.bytes ++ List.replicate (bufSize - chunk.bytes.length) 0 ++ chunk.behind

/-- The loop with a new buffer in every round. -/
def loop (bufSize : Nat) (stop : ReadStop) (d : Drained) : List Chunk → Except Int Drained
  | [] => d.stop stop
  | chunk :: chunks => loop bufSize stop (d.append (chunk.memory bufSize)) chunks

/-- `SocketHandler::Read` and `ConnHandler::Read`. -/
inductive Reader where
  | socketHandler
  | connHandler
  deriving DecidableEq, Repr

/-- The size of the buffer. -/
def Reader.bufSize : Reader → Nat
  | .socketHandler => 1000
  | .connHandler => 3

/-- `SocketHandler::Read`. -/
def SocketHandler.read (chunks : List Chunk) (stop : ReadStop) : Except Int Drained := loop 1000 stop {} chunks

/-- `ConnHandler::Read`. -/
def ConnHandler.read (chunks : List Chunk) (stop : ReadStop) : Except Int Drained := loop 3 stop {} chunks

/-- The function of the program. -/
def Reader.read : Reader → List Chunk → ReadStop → Except Int Drained
  | .socketHandler => SocketHandler.read
  | .connHandler => ConnHandler.read

variable {bufSize : Nat} {stop : ReadStop} {d d' : Drained} {chunk : Chunk} {chunks : List Chunk} {r : Reader}

/-! ### One round -/

/-- The buffer holds its end of the string if and only if `read` has not filled it with characters. -/
theorem Chunk.reads_memory_le_iff (h : chunk.bytes.length ≤ bufSize) :
    CString.reads (chunk.memory bufSize) ≤ bufSize ↔ 0 ∈ chunk.bytes ∨ chunk.bytes.length < bufSize := by
  have hbuf : (chunk.bytes ++ List.replicate (bufSize - chunk.bytes.length) 0).length = bufSize := by
    rw [List.length_append, List.length_replicate]
    omega
  have hle : CString.reads (chunk.memory bufSize) ≤ _ ↔ _ := CString.reads_le_iff
  rw [hbuf] at hle
  rw [hle, List.mem_append, List.mem_replicate, Nat.sub_ne_zero_iff_lt]
  exact or_congr_right (and_iff_left rfl)

/-- A string that ends in the buffer is what `read` has put there, up to its first zero. -/
theorem Chunk.content_memory (h : 0 ∈ chunk.bytes ∨ chunk.bytes.length < bufSize) :
    CString.content (chunk.memory bufSize) = CString.content chunk.bytes := by
  rw [memory, List.append_assoc]
  rcases h with hzero | hlt
  · exact CString.content_append_of_mem hzero
  · obtain ⟨k, hk⟩ : ∃ k, bufSize - chunk.bytes.length = k + 1 := ⟨bufSize - chunk.bytes.length - 1, by omega⟩
    rw [hk, List.replicate_succ, List.cons_append]
    exact CString.content_append_zero

/-! ### All rounds -/

theorem loop_eq : loop bufSize stop d chunks =
    Drained.stop { d with
      s := d.s ++ (chunks.map fun chunk => CString.content (chunk.memory bufSize)).flatten
      reads := d.reads ++ chunks.map fun chunk => CString.reads (chunk.memory bufSize) } stop := by
  induction chunks generalizing d with
  | nil => simp [loop]
  | cons chunk chunks ih =>
    rw [loop, ih]
    simp [Drained.append]

theorem Drained.stop_ok (hstop : ∀ code, stop ≠ .error code) :
    ∃ d', d.stop stop = .ok d' ∧ d'.s = d.s ∧ d'.reads = d.reads := by
  cases stop with
  | eof | again => exact ⟨_, rfl, rfl, rfl⟩
  | error code => exact absurd rfl (hstop code)

/-- The loop returns what `read` has delivered, and stays in the buffer, if and only if no delivery has a zero in it or
    fills the buffer. -/
theorem loop_exact_iff (hsize : ∀ chunk ∈ chunks, chunk.bytes.length ≤ bufSize) (hstop : ∀ code, stop ≠ .error code) :
    (∃ d, loop bufSize stop {} chunks = .ok d ∧ d.s = (chunks.map Chunk.bytes).flatten ∧ ∀ n ∈ d.reads, n ≤ bufSize) ↔
      ∀ chunk ∈ chunks, 0 ∉ chunk.bytes ∧ chunk.bytes.length < bufSize := by
  obtain ⟨d, hd, hs, hreads⟩ := Drained.stop_ok (d := (Drained.mk
    ((chunks.map fun chunk => CString.content (chunk.memory bufSize)).flatten) false
    (chunks.map fun chunk => CString.reads (chunk.memory bufSize)))) hstop
  have hloop : loop bufSize stop {} chunks = .ok d := loop_eq.trans hd
  have hinside : (∀ n ∈ d.reads, n ≤ bufSize) ↔
      ∀ chunk ∈ chunks, 0 ∈ chunk.bytes ∨ chunk.bytes.length < bufSize := by
    rw [hreads, List.forall_mem_map]
    exact forall₂_congr fun chunk hchunk => Chunk.reads_memory_le_iff (hsize chunk hchunk)
  have hexact (hin : ∀ chunk ∈ chunks, 0 ∈ chunk.bytes ∨ chunk.bytes.length < bufSize) :
      d.s = (chunks.map Chunk.bytes).flatten ↔ ∀ chunk ∈ chunks, 0 ∉ chunk.bytes := by
    have hcontent : chunks.map (fun chunk => CString.content (chunk.memory bufSize)) =
        chunks.map fun chunk => CString.content chunk.bytes :=
      List.map_congr_left fun chunk hchunk => Chunk.content_memory (hin chunk hchunk)
    rw [hs, hcontent, CString.flatten_map_eq_iff fun chunk _ => CString.content_begin]
    exact forall₂_congr fun chunk _ => CString.content_eq_self_iff
  constructor
  · rintro ⟨d', hd', hs', hreads'⟩
    cases hloop.symm.trans hd'
    have hin := hinside.mp hreads'
    have hzero := (hexact hin).mp hs'
    exact fun chunk hchunk => ⟨hzero chunk hchunk, (hin chunk hchunk).resolve_left (hzero chunk hchunk)⟩
  · intro h
    have hin : ∀ chunk ∈ chunks, 0 ∈ chunk.bytes ∨ chunk.bytes.length < bufSize :=
      fun chunk hchunk => Or.inr (h chunk hchunk).2
    exact ⟨d, hloop, (hexact hin).mpr fun chunk hchunk => (h chunk hchunk).1, hinside.mpr hin⟩

/-- `SocketHandler::Read` and `ConnHandler::Read` return the bytes of their calls of `read`, and do not read behind
    their buffers, if and only if no call has delivered a zero or filled the buffer. -/
theorem read_exact_iff (r : Reader) (chunks : List Chunk) (stop : ReadStop)
    (hsize : ∀ chunk ∈ chunks, 1 ≤ chunk.bytes.length ∧ chunk.bytes.length ≤ r.bufSize)
    (hstop : ∀ code, stop ≠ .error code) :
    (∃ d, r.read chunks stop = .ok d ∧ d.s = (chunks.map Chunk.bytes).flatten ∧ ∀ n ∈ d.reads, n ≤ r.bufSize) ↔
      ∀ chunk ∈ chunks, 0 ∉ chunk.bytes ∧ chunk.bytes.length < r.bufSize := by
  have hloop : r.read chunks stop = loop r.bufSize stop {} chunks := by
    cases r <;> rfl
  rw [hloop]
  exact loop_exact_iff (fun chunk hchunk => (hsize chunk hchunk).2) hstop

/-- Two deliveries to the session server. -/
theorem read_exact_iff_connHandler : ∃ d, ConnHandler.read [⟨[104, 105], []⟩, ⟨[33], [7]⟩] .eof = .ok d ∧
    d.s = [104, 105, 33] ∧ ∀ n ∈ d.reads, n ≤ 3 :=
  (read_exact_iff .connHandler [⟨[104, 105], []⟩, ⟨[33], [7]⟩] .eof (by decide) (by simp)).mpr (by decide)

/-- A delivery that fills the buffer is read on into what lies behind, and one with a zero is cut short. -/
theorem read_not_exact :
    ConnHandler.read [⟨[97, 98, 99], [100, 0]⟩] .again = .ok { s := [97, 98, 99, 100], reads := [5] } ∧
    ConnHandler.read [⟨[97, 0], []⟩] .again = .ok { s := [97], reads := [2] } ∧
    SocketHandler.read [⟨[97, 0, 98], []⟩] .again = .ok { s := [97], reads := [2] } := by
  exact ⟨by decide, by decide, by decide⟩

/-! ### Where the loops are used -/

/-- The HTTP server's connections receive what a round appends. -/
theorem Chunk.content_memory_eq_cString :
    CString.content (chunk.memory SimpleHttp.bufSize) = SimpleHttp.cString chunk.bytes chunk.behind := rfl

/-- So do the session server's. -/
theorem readLoop_eq : EdgeTriggered.ConnHandler.readLoop stop d.eof d.s
      (chunks.map fun chunk => CString.content (chunk.memory 3)) =
    ((loop 3 stop d chunks).map fun d => (d.s, d.eof)).mapError EdgeTriggered.Error.read := by
  induction chunks generalizing d with
  | nil => cases stop <;> rfl
  | cons chunk chunks ih => exact ih (d := d.append (chunk.memory 3))

end Drain

/-! ### The loop with a terminator -/

namespace SocketTcp
open Drain
open EdgeTriggered (ReadStop)

/-- `bufSize` of `Read` of the TCP tool. -/
def bufSize : Nat := 1000

/-- `Read` of the TCP tool, with one buffer of `bufSize + 1` bytes for all rounds; `readStop` is `eof`. -/
def readLoop (stop : ReadStop) (buf : ByteString) (d : Drained) : List Chunk → Except Int Drained
  | [] => d.stop stop
  | chunk :: chunks =>
    let buf := chunk.bytes ++ 0 :: buf.drop (chunk.bytes.length + 1)
    readLoop stop buf (d.append (buf ++ chunk.behind)) chunks

/-- `Read` of the TCP tool. -/
def read (chunks : List Chunk) (stop : ReadStop) : Except Int Drained :=
  readLoop stop (List.replicate (bufSize + 1) 0) {} chunks

variable {stop : ReadStop} {buf : ByteString} {d : Drained} {chunks : List Chunk}

/-- Whatever is in the buffer, a round appends what it has read, up to the first zero. -/
theorem readLoop_eq (hsize : ∀ chunk ∈ chunks, chunk.bytes.length ≤ bufSize) (hbuf : buf.length = bufSize + 1) :
    readLoop stop buf d chunks = Drained.stop { d with
      s := d.s ++ (chunks.map fun chunk => CString.content chunk.bytes).flatten
      reads := d.reads ++ chunks.map fun chunk => CString.reads chunk.bytes } stop := by
  induction chunks generalizing d buf with
  | nil => simp [readLoop]
  | cons chunk chunks ih =>
    have hchunk := hsize chunk (List.mem_cons_self ..)
    have hcontent : CString.content (chunk.bytes ++ 0 :: buf.drop (chunk.bytes.length + 1) ++ chunk.behind) =
        CString.content chunk.bytes := by
      rw [List.append_assoc, List.cons_append]
      exact CString.content_append_zero
    have hlength : (chunk.bytes ++ 0 :: buf.drop (chunk.bytes.length + 1)).length = bufSize + 1 := by
      rw [List.length_append, List.length_cons, List.length_drop, hbuf]
      omega
    rw [readLoop, ih (fun chunk' hmem => hsize chunk' (List.mem_cons_of_mem _ hmem)) hlength]
    rw [Drained.append, CString.reads, hcontent]
    simp [CString.reads]

/-- With the terminator a delivery may fill the buffer. -/
theorem terminated_read_exact (hsize : ∀ chunk ∈ chunks, chunk.bytes.length ≤ bufSize)
    (hstop : ∀ code, stop ≠ .error code) :
    ∃ d, read chunks stop = .ok d ∧ (∀ n ∈ d.reads, n ≤ bufSize + 1) ∧
      (d.s = (chunks.map Chunk.bytes).flatten ↔ ∀ chunk ∈ chunks, 0 ∉ chunk.bytes) := by
  obtain ⟨d, hd, hs, hreads⟩ := Drained.stop_ok (d := (Drained.mk
    ((chunks.map fun chunk => CString.content chunk.bytes).flatten) false
    (chunks.map fun chunk => CString.reads chunk.bytes))) hstop
  refine ⟨d, (readLoop_eq hsize List.length_replicate).trans hd, ?_, ?_⟩
  · rw [hreads, List.forall_mem_map]
    intro chunk hchunk
    exact Nat.succ_le_succ (CString.content_begin.length_le.trans (hsize chunk hchunk))
  · rw [hs, CString.flatten_map_eq_iff fun chunk _ => CString.content_begin]
    exact forall₂_congr fun chunk _ => CString.content_eq_self_iff

end SocketTcp
