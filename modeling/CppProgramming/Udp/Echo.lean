import CppProgramming.Lib.ByteString
import CppProgramming.Lib.CString
import CppProgramming.Lib.Holdings

/-! # The datagram echo

Clients send the lines of their stdin to a server, one datagram each, and wait for one datagram after each; the server
sends back what it gets. The network loses datagrams and delivers them in any order; it may deliver them twice. Strangers
send what they like. A client is compiled with `CONNECT` or without; only with it the kernel keeps datagrams away that
are not the server's. -/

namespace Udp
open Holdings

/-- `MAXLINE`. -/
def maxLine : Nat := 0xffff - 8

/-- `'\n'`. -/
def newline : UInt8 := 10

/-- The loop of `fgets` for `n` characters: the line and the rest. -/
def fgetsLoop : Nat → ByteString → ByteString × ByteString
  | 0, rest => ([], rest)
  | _ + 1, [] => ([], [])
  | n + 1, b :: rest => if b = newline then ([b], rest) else ((b :: (fgetsLoop n rest).1), (fgetsLoop n rest).2)

/-- `fgets(sendline, size, fp)`: the line and what is left of the input. -/
def fgets (size : Nat) (input : ByteString) : Option (ByteString × ByteString) :=
  if input = [] then none else some (fgetsLoop (size - 1) input)

/-- What is sent of a line, `strlen(sendline)` characters. -/
def payload (line : ByteString) : ByteString := CString.content (line ++ [0])

/-- What is printed of a datagram: `recvline[n] = 0; fputs(recvline, stdout)`. -/
def shown (bytes : ByteString) : ByteString := CString.content (bytes.take maxLine ++ [0])

variable {Addr : Type} [DecidableEq Addr]

/-- A datagram on its way. -/
structure Datagram (Addr : Type) where
  src : Addr
  dst : Addr
  bytes : ByteString
  deriving DecidableEq

/-- `DgCli` of a client. The last four fields are history: the lines that were read and sent, what was sent of them, the
    line that could not be sent, and what was printed. -/
structure Client where
  stdin : ByteString
  -- Between the sending and the receiving of a datagram.
  waiting : Bool := false
  ended : Bool := false
  lines : List ByteString := []
  sent : List ByteString := []
  unsent : ByteString := []
  printed : List ByteString := []

/-- Who is where, and what the network may do. Strangers may send to the server in any case, and to clients where
    `strangers` says so. -/
structure Setting (Addr : Type) where
  server : Addr
  isClient : Addr → Bool
  apart : isClient server = false
  connect : Bool
  duplicates : Bool
  strangers : Bool

/-- `DgEcho` between its two calls has `mesg[0]` to `mesg[n - 1]` and `cliaddr`. -/
structure State (Addr : Type) where
  mesg : Option (ByteString × Addr) := none
  ended : Bool := false
  clients : Addr → Client
  net : List (Datagram Addr) := []

/-- One client changes. -/
def State.put (s : State Addr) (c : Addr) (client : Client) : State Addr :=
  { s with clients := Function.update s.clients c client }

/-- A step of a client, of the server, of the network or of a stranger. -/
inductive Step (S : Setting Addr) : State Addr → State Addr → Prop
  | send {s : State Addr} {c : Addr} {line rest : ByteString} : S.isClient c = true → (s.clients c).ended = false →
      (s.clients c).waiting = false → fgets maxLine (s.clients c).stdin = some (line, rest) →
      Step S s { s.put c { s.clients c with
        stdin := rest, waiting := true, lines := (s.clients c).lines ++ [line]
        sent := (s.clients c).sent ++ [payload line] } with net := ⟨c, S.server, payload line⟩ :: s.net }
  | receive {s : State Addr} {c : Addr} {g : Datagram Addr} : S.isClient c = true → (s.clients c).ended = false →
      (s.clients c).waiting = true → g ∈ s.net → g.dst = c → (S.connect = true → g.src = S.server) →
      Step S s { s.put c { s.clients c with
        waiting := false, printed := (s.clients c).printed ++ [shown g.bytes] } with net := s.net.erase g }
  | recvFrom {s : State Addr} {g : Datagram Addr} : s.ended = false → s.mesg = none → g ∈ s.net → g.dst = S.server →
      Step S s { s with mesg := some (g.bytes.take maxLine, g.src), net := s.net.erase g }
  | sendTo {s : State Addr} {m : ByteString} {a : Addr} : s.ended = false → s.mesg = some (m, a) →
      Step S s { s with mesg := none, net := ⟨S.server, a, m⟩ :: s.net }
  | lose {s : State Addr} {g : Datagram Addr} : g ∈ s.net → Step S s { s with net := s.net.erase g }
  | duplicate {s : State Addr} {g : Datagram Addr} : S.duplicates = true → g ∈ s.net →
      Step S s { s with net := g :: s.net }
  | stranger {s : State Addr} (g : Datagram Addr) : S.strangers = true ∨ S.isClient g.dst = false →
      g.src ≠ S.server → S.isClient g.src = false → Step S s { s with net := g :: s.net }
  -- `Write` or `SendTo` fails, for a line that `fgets` has taken.
  | sendFails {s : State Addr} {c : Addr} {line rest : ByteString} : S.isClient c = true →
      (s.clients c).ended = false → (s.clients c).waiting = false →
      fgets maxLine (s.clients c).stdin = some (line, rest) →
      Step S s (s.put c { s.clients c with stdin := rest, unsent := line, ended := true })
  -- Another call fails, or the input has ended.
  | endClient {s : State Addr} (c : Addr) : Step S s (s.put c { s.clients c with ended := true })
  | endServer {s : State Addr} : Step S s { s with ended := true }

/-- The states that are reached with an input for each client. -/
inductive Reach (S : Setting Addr) (input : Addr → ByteString) : State Addr → Prop
  | start : Reach S input { clients := fun c => { stdin := input c } }
  | step {s s' : State Addr} : Reach S input s → Step S s s' → Reach S input s'

/-! ### Lines -/

theorem fgetsLoop_append (n : Nat) (input : ByteString) : (fgetsLoop n input).1 ++ (fgetsLoop n input).2 = input := by
  fun_induction fgetsLoop n input with
  | case1 => rfl
  | case2 => rfl
  | case3 => rfl
  | case4 n b rest hb ih => rw [List.cons_append, ih]

theorem fgetsLoop_length (n : Nat) (input : ByteString) : (fgetsLoop n input).1.length ≤ n := by
  fun_induction fgetsLoop n input with
  | case1 => exact Nat.le_refl _
  | case2 => exact Nat.zero_le _
  | case3 => exact Nat.succ_le_succ (Nat.zero_le _)
  | case4 n b rest hb ih => exact Nat.succ_le_succ ih

theorem fgetsLoop_of_fgets {size : Nat} {input line rest : ByteString} (h : fgets size input = some (line, rest)) :
    fgetsLoop (size - 1) input = (line, rest) := by
  rw [fgets] at h
  split at h
  · cases h
  · exact Option.some.inj h

theorem payload_eq (line : ByteString) : payload line = CString.content line := CString.content_append_zero

theorem payload_begin (line : ByteString) : payload line <+: line := payload_eq line ▸ CString.content_begin

/-- A datagram that was sent by a client is shown as it is. -/
theorem shown_payload {line : ByteString} (h : line.length ≤ maxLine) : shown (payload line) = payload line := by
  have hlength : (payload line).length ≤ maxLine := (payload_begin line).length_le.trans h
  have hplain : 0 ∉ payload line := by
    rw [payload_eq]
    exact CString.not_mem_content
  rw [shown, List.take_of_length_le hlength, CString.content_append_of_not_mem hplain]
  simp [CString.content]

/-! ### What is under way -/

/-- The client that a datagram is of, as its request or as the answer to it. -/
def Setting.owner (S : Setting Addr) (g : Datagram Addr) : Option Addr :=
  if S.isClient g.src then some g.src
  else if g.src = S.server ∧ S.isClient g.dst then some g.dst
  else none

/-- What a datagram is for its client. -/
def Setting.item (S : Setting Addr) (g : Datagram Addr) : Option (Addr × ByteString) :=
  (S.owner g).map fun c => (c, g.bytes)

/-- What is under way for clients. -/
def State.underWay (S : Setting Addr) (s : State Addr) : List (Addr × ByteString) :=
  s.net.filterMap S.item ++
    (s.mesg.toList.filterMap fun x => if S.isClient x.2 then some (x.2, x.1) else none)

/-- What a client has read is its input; it ends with a line that it cannot send. -/
structure Client.Reads (input : ByteString) (x : Client) : Prop where
  input : x.lines.flatten ++ x.unsent ++ x.stdin = input
  unsent : x.unsent ≠ [] → x.ended = true

/-- What a client has sent is of its lines. -/
structure Client.Kept (x : Client) : Prop where
  sent : x.sent = x.lines.map payload
  length : ∀ line ∈ x.lines, line.length ≤ maxLine

/-- What comes to a client that listens only to the server, or that no stranger sends to, has been sent by it. -/
structure Authentic (S : Setting Addr) (s : State Addr) : Prop where
  kept : ∀ c, (s.clients c).Kept
  requests : ∀ g ∈ s.net, S.isClient g.src = true → g.dst = S.server
  strangers : S.strangers = false → ∀ g ∈ s.net, S.isClient g.dst = true → g.src = S.server
  underWay : ∀ x ∈ s.underWay S, x.2 ∈ (s.clients x.1).sent
  printed : ∀ c, ∀ p ∈ (s.clients c).printed, p ∈ (s.clients c).sent

/-- What a client knows of what it has sent. -/
def Client.books (x : Client) : Bool × List ByteString × List ByteString × List ByteString :=
  (x.waiting, x.lines, x.sent, x.printed)

/-- What a step does to the clients and to what is under way for them. -/
inductive Shift (S : Setting Addr) (s s' : State Addr) : Prop
  | send {c : Addr} {line : ByteString} {client : Client} : (s.clients c).waiting = false →
      line.length ≤ maxLine → s'.clients = Function.update s.clients c client →
      client.books = (true, (s.clients c).lines ++ [line], (s.clients c).sent ++ [payload line],
        (s.clients c).printed) →
      (s'.underWay S).Perm ((c, payload line) :: s.underWay S) → Shift S s s'
  | receive {c : Addr} {p : ByteString} {client : Client} : s'.clients = Function.update s.clients c client →
      client.books = (false, (s.clients c).lines, (s.clients c).sent, (s.clients c).printed ++ [p]) →
      (s.underWay S).Perm ((c, p) :: s'.underWay S) → Shift S s s'
  | same : (∀ c, (s'.clients c).books = (s.clients c).books) → (s'.underWay S).Perm (s.underWay S) → Shift S s s'
  | lose {x : Addr × ByteString} : (∀ c, (s'.clients c).books = (s.clients c).books) →
      (s.underWay S).Perm (x :: s'.underWay S) → Shift S s s'
  | duplicate {x : Addr × ByteString} : S.duplicates = true → (∀ c, (s'.clients c).books = (s.clients c).books) →
      x ∈ s.underWay S → (s'.underWay S).Perm (x :: s.underWay S) → Shift S s s'

section Shift
variable {S : Setting Addr} {input : Addr → ByteString} {s s' : State Addr} {g : Datagram Addr} {c : Addr}
  {clients : Addr → Client}

theorem item_of_none (h : S.owner g = none) : S.item g = none := by rw [Setting.item, h, Option.map_none]

theorem item_of_some (h : S.owner g = some c) : S.item g = some (c, g.bytes) := by
  rw [Setting.item, h, Option.map_some]

theorem underWay_eq (S : Setting Addr) (s : State Addr) : s.underWay S = s.net.filterMap S.item ++
    (s.mesg.toList.filterMap fun x => if S.isClient x.2 then some (x.2, x.1) else none) := rfl

theorem filterMap_erase_none (hg : g ∈ s.net) (h : S.owner g = none) :
    (s.net.filterMap S.item).Perm ((s.net.erase g).filterMap S.item) := by
  have hperm := (List.perm_cons_erase hg).filterMap S.item
  rwa [List.filterMap_cons_none (item_of_none h)] at hperm

theorem filterMap_erase_some (hg : g ∈ s.net) (h : S.owner g = some c) :
    (s.net.filterMap S.item).Perm ((c, g.bytes) :: (s.net.erase g).filterMap S.item) := by
  have hperm := (List.perm_cons_erase hg).filterMap S.item
  rwa [List.filterMap_cons_some (item_of_some h)] at hperm

theorem owner_client (h : S.isClient g.src = true) : S.owner g = some g.src := if_pos h

theorem owner_answer {a : Addr} {m : ByteString} (h : S.isClient a = true) : S.owner ⟨S.server, a, m⟩ = some a := by
  simp [Setting.owner, S.apart, h]

theorem owner_none (hsrc : S.isClient g.src = false) (h : g.src ≠ S.server ∨ S.isClient g.dst = false) :
    S.owner g = none := by
  rcases h with hne | hdst
  · simp [Setting.owner, hsrc, hne]
  · simp [Setting.owner, hsrc, hdst]

/-- A client shows what comes to it as it is. -/
theorem Authentic.shown (h : Authentic S s) (hg : g ∈ s.net) (hc : S.owner g = some c) :
    g.bytes.take maxLine = g.bytes ∧ Udp.shown g.bytes = g.bytes := by
  have hitem : (c, g.bytes) ∈ s.underWay S :=
    List.mem_append_left _ (List.mem_filterMap.mpr ⟨g, hg, item_of_some hc⟩)
  have hsent := h.underWay _ hitem
  rw [(h.kept c).sent] at hsent
  obtain ⟨line, hline, heq⟩ := List.mem_map.mp hsent
  have hlength := (h.kept c).length line hline
  have hbytes : payload line = g.bytes := heq
  rw [← hbytes]
  exact ⟨List.take_of_length_le ((payload_begin line).length_le.trans hlength), shown_payload hlength⟩

theorem Step.shift (hS : S.connect = true ∨ S.strangers = false) (h : Authentic S s) (hstep : Step S s s') :
    Shift S s s' := by
  cases hstep with
  | @send c line rest hc hended hwaiting hfgets =>
    have hline := fgetsLoop_of_fgets hfgets
    have hlength := fgetsLoop_length (maxLine - 1) (s.clients c).stdin
    rw [hline] at hlength
    refine .send hwaiting (hlength.trans (Nat.sub_le _ _)) rfl rfl ?_
    rw [underWay_eq, List.filterMap_cons_some (item_of_some (owner_client hc))]
    exact List.Perm.refl _
  | @receive c g hc hended hwaiting hg hdst hconnect =>
    have hsrc : g.src = S.server := by
      rcases hS with hconn | hnone
      · exact hconnect hconn
      · exact h.strangers hnone g hg (hdst ▸ hc)
    have howner : S.owner g = some c := by
      have hg' : g = ⟨S.server, c, g.bytes⟩ := by rw [← hsrc, ← hdst]
      rw [hg']
      exact owner_answer hc
    refine .receive (p := g.bytes) rfl ?_ ?_
    · show (_, _, _, (s.clients c).printed ++ [Udp.shown g.bytes]) = _
      rw [(h.shown hg howner).2]
    · exact (filterMap_erase_some hg howner).append_right _
  | @recvFrom g hended hmesg hg hdst =>
    refine .same (fun _ => rfl) ?_
    rw [underWay_eq, underWay_eq, hmesg]
    cases hsrc : S.isClient g.src with
    | false =>
      have howner := owner_none hsrc (.inr (hdst ▸ S.apart))
      simpa [hsrc] using (filterMap_erase_none hg howner).symm
    | true =>
      have howner := owner_client hsrc
      have hmoved := (filterMap_erase_some hg howner).symm
      simpa [hsrc, (h.shown hg howner).1] using (List.perm_append_singleton _ _).trans hmoved
  | @sendTo m a hended hmesg =>
    refine .same (fun _ => rfl) ?_
    rw [underWay_eq, underWay_eq, hmesg]
    cases ha : S.isClient a with
    | false =>
      have howner : S.owner ⟨S.server, a, m⟩ = none := owner_none S.apart (.inr ha)
      rw [List.filterMap_cons_none (item_of_none howner)]
      simp [ha]
    | true =>
      rw [List.filterMap_cons_some (item_of_some (owner_answer ha))]
      simpa [ha] using (List.perm_append_singleton (a, m) (s.net.filterMap S.item)).symm
  | @lose g hg =>
    cases howner : S.owner g with
    | none => exact .same (fun _ => rfl) ((filterMap_erase_none hg howner).symm.append_right _)
    | some c => exact .lose (fun _ => rfl) ((filterMap_erase_some hg howner).append_right _)
  | @duplicate g hdup hg =>
    cases howner : S.owner g with
    | none =>
      refine .same (fun _ => rfl) ?_
      rw [underWay_eq, List.filterMap_cons_none (item_of_none howner)]
      exact List.Perm.refl _
    | some c =>
      refine .duplicate (x := (c, g.bytes)) hdup (fun _ => rfl) ?_ ?_
      · exact List.mem_append_left _ (List.mem_filterMap.mpr ⟨g, hg, item_of_some howner⟩)
      · rw [underWay_eq, List.filterMap_cons_some (item_of_some howner)]
        exact List.Perm.refl _
  | stranger g hstrangers hne hsrc =>
    refine .same (fun _ => rfl) ?_
    rw [underWay_eq, List.filterMap_cons_none (item_of_none (owner_none hsrc (.inl hne)))]
    exact List.Perm.refl _
  | @sendFails c _ _ _ _ _ _ | endClient c =>
    refine .same (fun c' => ?_) (List.Perm.refl _)
    by_cases hc : c' = c
    · subst hc
      show (Function.update s.clients c' _ c').books = (s.clients c').books
      rw [Function.update_self]
      rfl
    · show (Function.update s.clients c _ c').books = (s.clients c').books
      rw [Function.update_of_ne hc]
  | endServer => exact .same (fun _ => rfl) (List.Perm.refl _)

/-- Where a datagram comes from. -/
theorem Step.net (hstep : Step S s s') (hg : g ∈ s'.net) : g ∈ s.net ∨
    (S.isClient g.src = true → g.dst = S.server) ∧
      (S.strangers = false → S.isClient g.dst = true → g.src = S.server) := by
  cases hstep with
  | send hc hended hwaiting hfgets =>
    rcases List.mem_cons.mp hg with rfl | hg
    · exact .inr ⟨fun _ => rfl, fun _ hdst => absurd hdst (by rw [S.apart]; exact Bool.false_ne_true)⟩
    · exact .inl hg
  | receive | recvFrom | lose => exact .inl (List.mem_of_mem_erase hg)
  | sendTo =>
    rcases List.mem_cons.mp hg with rfl | hg
    · exact .inr ⟨fun hc => absurd hc (by rw [S.apart]; exact Bool.false_ne_true), fun _ _ => rfl⟩
    · exact .inl hg
  | duplicate hdup hmem =>
    rcases List.mem_cons.mp hg with rfl | hg
    · exact .inl hmem
    · exact .inl hg
  | stranger g' hstrangers hne hsrc =>
    rcases List.mem_cons.mp hg with rfl | hg
    · exact .inr ⟨fun hc => absurd (hsrc.symm.trans hc) Bool.false_ne_true,
        fun hnone hdst => by
          rcases hstrangers with hsome | hother
          · cases hnone.symm.trans hsome
          · cases hother.symm.trans hdst⟩
    · exact .inl hg
  | sendFails | endClient | endServer => exact .inl hg

/-- What one client knows is kept where the books are. -/
theorem books_ext {x y : Client} (h : x.books = y.books) : x.waiting = y.waiting ∧ x.lines = y.lines ∧
    x.sent = y.sent ∧ x.printed = y.printed := by
  obtain ⟨hwaiting, h⟩ := Prod.mk.inj h
  obtain ⟨hlines, h⟩ := Prod.mk.inj h
  obtain ⟨hsent, hprinted⟩ := Prod.mk.inj h
  exact ⟨hwaiting, hlines, hsent, hprinted⟩

/-- What every client keeps, if a sending and a receiving client keep it. -/
theorem Shift.each {I : Addr → Client → Prop} (h : Shift S s s') (hI : ∀ c, I c (s.clients c))
    (hbooks : ∀ c x y, x.books = y.books → I c x → I c y)
    (hsend : ∀ c line, (s.clients c).waiting = false → line.length ≤ maxLine →
      I c { s.clients c with
        waiting := true, lines := (s.clients c).lines ++ [line], sent := (s.clients c).sent ++ [payload line] })
    (hreceive : ∀ c p, (c, p) ∈ s.underWay S →
      I c { s.clients c with waiting := false, printed := (s.clients c).printed ++ [p] }) (c : Addr) :
    I c (s'.clients c) := by
  cases h with
  | @send c' line client hwaiting hlength hclients hclient hperm =>
    rw [hclients]
    by_cases hc : c = c'
    · subst hc
      rw [Function.update_self]
      have hnew := hsend c line hwaiting hlength
      refine hbooks c _ _ ?_ hnew
      exact hclient.symm
    · rw [Function.update_of_ne hc]
      exact hI c
  | @receive c' p client hclients hclient hperm =>
    rw [hclients]
    by_cases hc : c = c'
    · subst hc
      rw [Function.update_self]
      have hnew := hreceive c p (hperm.mem_iff.mpr (List.mem_cons_self ..))
      refine hbooks c _ _ ?_ hnew
      exact hclient.symm
    · rw [Function.update_of_ne hc]
      exact hI c
  | same hsame => exact hbooks c _ _ (hsame c).symm (hI c)
  | lose hsame => exact hbooks c _ _ (hsame c).symm (hI c)
  | duplicate hdup hsame => exact hbooks c _ _ (hsame c).symm (hI c)

theorem Shift.kept (h : Shift S s s') (hI : ∀ c, (s.clients c).Kept) (c : Addr) : (s'.clients c).Kept := by
  refine h.each (I := fun _ x => x.Kept) hI ?_ ?_ ?_ c
  · intro c x y hbooks hx
    obtain ⟨-, hlines, hsent, -⟩ := books_ext hbooks
    exact ⟨by rw [← hsent, ← hlines, hx.sent], fun line hline => hx.length line (hlines ▸ hline)⟩
  · intro c line hwaiting hlength
    obtain ⟨hsent, hall⟩ := hI c
    refine ⟨?_, fun l hl => ?_⟩
    · rw [List.map_append, ← hsent]
      rfl
    · rcases List.mem_append.mp hl with hold | hnew
      · exact hall l hold
      · exact List.mem_singleton.mp hnew ▸ hlength
  · intro c p hp
    exact ⟨(hI c).sent, (hI c).length⟩

/-- A step takes what it takes from the input of one client. -/
theorem Step.reads (hstep : Step S s s') (h : ∀ c, (s.clients c).Reads (input c)) (c : Addr) :
    (s'.clients c).Reads (input c) := by
  have hput : ∀ {c' : Addr} {client : Client}, client.Reads (input c') →
      (Function.update s.clients c' client c).Reads (input c) := by
    intro c' client hclient
    by_cases hc : c = c'
    · subst hc
      rw [Function.update_self]
      exact hclient
    · rw [Function.update_of_ne hc]
      exact h c
  have htaken : ∀ {c' : Addr} {line rest : ByteString}, (s.clients c').ended = false →
      fgets maxLine (s.clients c').stdin = some (line, rest) →
      (s.clients c').unsent = [] ∧ (s.clients c').lines.flatten ++ (line ++ rest) = input c' := by
    intro c' line rest hended hfgets
    have hnone : (s.clients c').unsent = [] := by
      by_contra hsome
      cases hended.symm.trans ((h c').unsent hsome)
    have happend := fgetsLoop_append (maxLine - 1) (s.clients c').stdin
    rw [fgetsLoop_of_fgets hfgets] at happend
    refine ⟨hnone, ?_⟩
    rw [happend, ← (h c').input, hnone, List.append_nil]
  cases hstep with
  | @send c' line rest hc hended hwaiting hfgets =>
    obtain ⟨hnone, hinput⟩ := htaken hended hfgets
    refine hput ⟨?_, fun hsome => absurd hnone hsome⟩
    show ((s.clients c').lines ++ [line]).flatten ++ (s.clients c').unsent ++ rest = _
    rw [hnone, List.append_nil, List.flatten_append, List.flatten_singleton, List.append_assoc, hinput]
  | @sendFails c' line rest hc hended hwaiting hfgets =>
    obtain ⟨-, hinput⟩ := htaken hended hfgets
    refine hput ⟨?_, fun _ => rfl⟩
    rw [List.append_assoc]
    exact hinput
  | receive => exact hput ⟨(h _).input, (h _).unsent⟩
  | endClient c' => exact hput ⟨(h c').input, fun _ => rfl⟩
  | recvFrom | sendTo | lose | duplicate | stranger | endServer => exact h c

/-- The strings that a client has sent are not forgotten. -/
theorem Shift.sent_subset (h : Shift S s s') (c : Addr) : (s.clients c).sent ⊆ (s'.clients c).sent := by
  refine h.each (I := fun c x => (s.clients c).sent ⊆ x.sent) (fun c => List.Subset.refl _) ?_ ?_ ?_ c
  · intro c x y hbooks hx
    obtain ⟨-, -, hsent, -⟩ := books_ext hbooks
    exact hsent ▸ hx
  · exact fun c line _ _ => List.subset_append_left _ _
  · exact fun c p _ => List.Subset.refl _

theorem Authentic.step (hS : S.connect = true ∨ S.strangers = false) (h : Authentic S s) (hstep : Step S s s') :
    Authentic S s' := by
  have hshift := hstep.shift hS h
  have hsubset := hshift.sent_subset
  refine ⟨hshift.kept h.kept, fun g hg hc => ?_, fun hnone g hg => ?_, fun x hx => ?_, ?_⟩
  · rcases hstep.net hg with hold | ⟨hnew, -⟩
    · exact h.requests g hold hc
    · exact hnew hc
  · rcases hstep.net hg with hold | ⟨-, hnew⟩
    · exact h.strangers hnone g hold
    · exact hnew hnone
  · cases hshift with
    | @send c line client hwaiting hlength hclients hclient hperm =>
      rcases List.mem_cons.mp (hperm.mem_iff.mp hx) with rfl | hold
      · obtain ⟨-, -, hsent, -⟩ := books_ext (y := { s.clients c with
          waiting := true, lines := (s.clients c).lines ++ [line]
          sent := (s.clients c).sent ++ [payload line] }) hclient
        rw [hclients, Function.update_self, hsent]
        exact List.mem_append_right _ (List.mem_singleton_self _)
      · exact hsubset _ (h.underWay x hold)
    | receive hclients hclient hperm => exact hsubset _ (h.underWay x (hperm.mem_iff.mpr (List.mem_cons_of_mem _ hx)))
    | same hsame hperm => exact hsubset _ (h.underWay x (hperm.mem_iff.mp hx))
    | lose hsame hperm => exact hsubset _ (h.underWay x (hperm.mem_iff.mpr (List.mem_cons_of_mem _ hx)))
    | duplicate hdup hsame hmem hperm =>
      rcases List.mem_cons.mp (hperm.mem_iff.mp hx) with rfl | hold
      · exact hsubset _ (h.underWay _ hmem)
      · exact hsubset _ (h.underWay x hold)
  · refine hshift.each (I := fun _ x => ∀ p ∈ x.printed, p ∈ x.sent) h.printed ?_ ?_ ?_
    · intro c x y hbooks hx p hp
      obtain ⟨-, -, hsent, hprinted⟩ := books_ext hbooks
      exact hsent ▸ hx p (hprinted ▸ hp)
    · intro c line _ _ p hp
      exact List.mem_append_left _ (h.printed c p hp)
    · intro c q hq p hp
      rcases List.mem_append.mp hp with hold | hnew
      · exact h.printed c p hold
      · rw [List.mem_singleton.mp hnew]
        exact h.underWay _ hq

theorem start_authentic : Authentic S { clients := fun c => { stdin := input c } } where
  kept _ := ⟨rfl, by simp⟩
  requests := by simp
  strangers := by simp
  underWay := by simp [State.underWay]
  printed := by simp

theorem Reach.authentic (hS : S.connect = true ∨ S.strangers = false) (h : Reach S input s) : Authentic S s := by
  induction h with
  | start => exact start_authentic
  | step _ hstep ih => exact ih.step hS hstep

theorem Reach.reads (h : Reach S input s) (c : Addr) : (s.clients c).Reads (input c) := by
  induction h generalizing c with
  | start => exact ⟨rfl, fun hsome => absurd rfl hsome⟩
  | step _ hstep ih => exact hstep.reads ih c

end Shift

/-! ### One datagram at a time -/

section InStep
variable {S : Setting Addr} {input : Addr → ByteString} {s s' : State Addr}

/-- The client waits for what it has sent last. -/
def Client.Awaits (x : Client) (p : ByteString) : Prop := x.waiting = true ∧ x.sent.getLast? = some p

/-- What was sent has been printed, but for the last when the client waits. -/
structure Client.InStep (x : Client) : Prop where
  idle : x.waiting = false → x.sent = x.printed
  waiting : x.waiting = true → ∃ p, x.sent = x.printed ++ [p]

/-- Where the network duplicates nothing, there is at most one datagram under way for a client, and the client waits for
    it. -/
structure InStep (S : Setting Addr) (s : State Addr) : Prop where
  clients : ∀ c, (s.clients c).InStep
  underWay : Exclusive (fun c p => (s.clients c).Awaits p) (s.underWay S)

theorem awaits_congr {x y : Client} (h : x.books = y.books) (p : ByteString) (hx : x.Awaits p) : y.Awaits p := by
  obtain ⟨hwaiting, -, hsent, -⟩ := books_ext h
  exact ⟨hwaiting ▸ hx.1, hsent ▸ hx.2⟩

theorem InStep.shift (hdup : S.duplicates = false) (h : InStep S s) (hshift : Shift S s s') : InStep S s' := by
  refine ⟨?_, ?_⟩
  · refine hshift.each (I := fun _ x => x.InStep) h.clients ?_ ?_ ?_
    · intro c x y hbooks hx
      obtain ⟨hwaiting, -, hsent, hprinted⟩ := books_ext hbooks
      refine ⟨fun hidle => ?_, fun hwait => ?_⟩
      · rw [← hsent, ← hprinted]
        exact hx.idle (hwaiting.trans hidle)
      · rw [← hsent, ← hprinted]
        exact hx.waiting (hwaiting.trans hwait)
    · intro c line hidle _
      refine ⟨Bool.noConfusion, fun _ => ⟨payload line, ?_⟩⟩
      show (s.clients c).sent ++ _ = (s.clients c).printed ++ _
      rw [(h.clients c).idle hidle]
    · intro c p hp
      obtain ⟨hwaiting, hlast⟩ := h.underWay.knows _ hp
      obtain ⟨q, hq⟩ := (h.clients c).waiting hwaiting
      refine ⟨fun _ => ?_, Bool.noConfusion⟩
      have hqp : q = p := by
        rw [hq, List.getLast?_concat] at hlast
        exact Option.some.inj hlast
      show (s.clients c).sent = (s.clients c).printed ++ [p]
      rw [hq, hqp]
  · cases hshift with
    | @send c line client hwaiting hlength hclients hclient hperm =>
      refine Exclusive.perm ?_ hperm.symm
      have hother : ∀ k, k ≠ c → s'.clients k = s.clients k := fun k hk => by rw [hclients, Function.update_of_ne hk]
      refine h.underWay.acquire (fun p hp => ?_) (fun k p hp => ?_) ?_
      · exact absurd (hwaiting.symm.trans hp.1) Bool.false_ne_true
      · by_cases hk : k = c
        · subst hk
          exact absurd (hwaiting.symm.trans hp.1) Bool.false_ne_true
        · rw [hother k hk]
          exact hp
      · rw [hclients, Function.update_self]
        refine awaits_congr (x := { s.clients c with
          waiting := true, lines := (s.clients c).lines ++ [line]
          sent := (s.clients c).sent ++ [payload line] }) hclient.symm _ ⟨rfl, ?_⟩
        exact List.getLast?_concat
    | @receive c p client hclients hclient hperm =>
      refine (h.underWay.perm hperm).release fun k q hk hq => ?_
      rw [hclients, Function.update_of_ne hk]
      exact hq
    | same hsame hperm =>
      exact (h.underWay.perm hperm.symm).mono fun k q hq => awaits_congr (hsame k).symm q hq
    | lose hsame hperm =>
      exact (h.underWay.perm hperm).release fun k q _ hq => awaits_congr (hsame k).symm q hq
    | duplicate hdup' => exact absurd (hdup.symm.trans hdup') Bool.false_ne_true

theorem start_inStep : InStep S { clients := fun c => { stdin := input c } } where
  clients _ := ⟨fun _ => rfl, Bool.noConfusion⟩
  underWay := ⟨by simp [State.underWay], by simp [State.underWay]⟩

theorem Reach.inStep (hS : S.connect = true ∨ S.strangers = false) (hdup : S.duplicates = false)
    (h : Reach S input s) : InStep S s := by
  induction h with
  | start => exact start_inStep
  | step hreach hstep ih => exact ih.shift hdup (hstep.shift hS (hreach.authentic hS))

/-- Every string that a client prints is one that it has sent, whatever the network does with the datagrams and whoever
    else sends some. -/
theorem printed_sent (S : Setting Addr) (hS : S.connect = true ∨ S.strangers = false) (input : Addr → ByteString)
    (s : State Addr) (h : Reach S input s) (c : Addr) :
    (∀ p ∈ (s.clients c).printed, p ∈ (s.clients c).sent) ∧ (s.clients c).sent = (s.clients c).lines.map payload ∧
      (s.clients c).lines.flatten ++ (s.clients c).unsent ++ (s.clients c).stdin = input c ∧
      ((s.clients c).unsent ≠ [] → (s.clients c).ended = true) := by
  have hauthentic := h.authentic hS
  exact ⟨hauthentic.printed c, (hauthentic.kept c).sent, (h.reads c).input, (h.reads c).unsent⟩

/-- What a client has printed is a begin of what it has sent, without at most the last of it; an input without zeros comes
    back as it is. -/
structure Client.Echoes (input : ByteString) (x : Client) : Prop where
  printed : x.sent = x.printed ∨ x.waiting = true ∧ ∃ p, x.sent = x.printed ++ [p]
  echo : 0 ∉ input → ∃ last, x.printed.flatten ++ last ++ x.unsent ++ x.stdin = input ∧ (x.waiting = false → last = [])
  unsent : x.unsent ≠ [] → x.ended = true

theorem payload_self {line : ByteString} (h : 0 ∉ line) : payload line = line := by
  rw [payload_eq, CString.content_eq_self_iff.mpr h]

/-- Where the network duplicates nothing, the clients are in step with the server, in whatever order the datagrams come
    and however many of them are lost. -/
theorem reach_echoes (S : Setting Addr) (hS : S.connect = true ∨ S.strangers = false) (hdup : S.duplicates = false)
    (input : Addr → ByteString) (s : State Addr) (h : Reach S input s) (c : Addr) :
    (s.clients c).Echoes (input c) := by
  obtain ⟨hsent, -⟩ := (h.authentic hS).kept c
  obtain ⟨hinput, hunsent⟩ := h.reads c
  have hstep := (h.inStep hS hdup).clients c
  have hall : 0 ∉ input c → (s.clients c).sent.flatten ++ (s.clients c).unsent ++ (s.clients c).stdin = input c := by
    intro hzero
    have hlines : (s.clients c).lines.map payload = (s.clients c).lines := by
      refine (List.map_congr_left fun line hline => ?_).trans (List.map_id _)
      refine payload_self fun hz => hzero ?_
      rw [← hinput]
      exact List.mem_append_left _ (List.mem_append_left _ (List.mem_flatten.mpr ⟨line, hline, hz⟩))
    rw [hsent, hlines, hinput]
  refine ⟨?_, fun hzero => ?_, hunsent⟩
  · cases hwaiting : (s.clients c).waiting with
    | false => exact .inl (hstep.idle hwaiting)
    | true => exact .inr ⟨rfl, hstep.waiting hwaiting⟩
  · cases hwaiting : (s.clients c).waiting with
    | false =>
      refine ⟨[], ?_, fun _ => rfl⟩
      rw [List.append_nil, ← hstep.idle hwaiting, hall hzero]
    | true =>
      obtain ⟨p, hp⟩ := hstep.waiting hwaiting
      refine ⟨p, ?_, Bool.noConfusion⟩
      have hflatten := hall hzero
      rwa [hp, List.flatten_append, List.flatten_singleton] at hflatten

end InStep

/-- One client, at the address 1; the server is at 0. -/
def oneClient (duplicates : Bool) : Setting Nat where
  server := 0
  isClient a := a = 1
  apart := rfl
  connect := true
  duplicates := duplicates
  strangers := true

/-- The first line comes back twice, and the second answer is taken for that to the second line. -/
theorem printed_sent_twice : ∃ s : State Nat, (s.clients 1).printed = [[97, 10], [97, 10]] ∧
    (s.clients 1).sent = [[97, 10], [98]] ∧ ∀ p ∈ (s.clients 1).printed, p ∈ (s.clients 1).sent := by
  have hanswered : Reach (oneClient true) (fun _ => [97, 10, 98]) _ :=
    .step (.step (.step .start (.send (c := 1) rfl rfl rfl rfl)) (.recvFrom rfl rfl (.head _) rfl)) (.sendTo rfl rfl)
  have hreach : Reach (oneClient true) (fun _ => [97, 10, 98]) _ :=
    .step (.step (.step (.step hanswered (.duplicate rfl (.head _)))
      (.receive (c := 1) rfl rfl rfl (.head _) rfl fun _ => rfl)) (.send (c := 1) rfl rfl rfl rfl))
      (.receive (c := 1) rfl rfl rfl (.tail _ (.head _)) rfl fun _ => rfl)
  exact ⟨_, rfl, rfl, (printed_sent (oneClient true) (.inl rfl) _ _ hreach 1).1⟩

/-- A line goes to the server and comes back. -/
theorem reach_echoes_line : ∃ s : State Nat, (s.clients 1).printed = [[97, 10]] ∧
    (s.clients 1).Echoes [97, 10, 98] := by
  have hreach : Reach (oneClient false) (fun _ => [97, 10, 98]) _ :=
    .step (.step (.step (.step .start (.send (c := 1) rfl rfl rfl rfl)) (.recvFrom rfl rfl (.head _) rfl))
      (.sendTo rfl rfl)) (.receive (c := 1) rfl rfl rfl (.head _) rfl fun _ => rfl)
  exact ⟨_, rfl, reach_echoes (oneClient false) (.inl rfl) rfl _ _ hreach 1⟩

end Udp
