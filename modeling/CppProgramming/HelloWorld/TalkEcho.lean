import CppProgramming.HelloWorld.SyncTalk
import CppProgramming.HelloWorld.TalkHandler
import CppProgramming.HelloWorld.TalkProgress

/-! # A talk call from end to end

The configuration of the client and the one of the server say whether they are asynchronous, each without regard to the
other. Whichever of the two clients talks to whichever of the two servers, what the client writes comes back word by word,
in order, and while the connection holds the call gets to its end at both sides, whatever the threads do first. -/

namespace HelloWorld.Talk

/-- The client by `GRPC_CLIENT_ASYNC`. An asynchronous one has a key and a queue for the call, and the poller of the
    queue is in its loop if `polling` says so. -/
def clientEnd (clientAsync polling : Bool) (key : EventKey) (queue : Int) (messages : List String) : ClientEnd :=
  match clientAsync with
  | true => TalkCall.clientEnd polling key queue messages
  | false => ChatClient.clientEnd messages

/-- The server by `GRPC_SERVER_ASYNC`. -/
def serverEnd (serverAsync : Bool) (cq : Nat) (key : EventKey) : ServerEnd :=
  match serverAsync with
  | true => TalkHandler.serverEnd cq key
  | false => ChatServiceImpl.serverEnd

section Pairings
variable {clientAsync polling serverAsync : Bool} {clientKey serverKey : EventKey} {queue : Int} {cq : Nat}
  {messages : List String}

theorem clientEnd_safe (clientAsync polling : Bool) (key : EventKey) (queue : Int) (messages : List String) :
    (clientEnd clientAsync polling key queue messages).Safe messages := by
  cases clientAsync with
  | true => exact TalkCall.safe polling key queue messages
  | false => exact (ChatClient.sound messages).toSafe

theorem clientEnd_sound (hpolling : clientAsync = true → polling = true) (key : EventKey) (queue : Int)
    (messages : List String) : (clientEnd clientAsync polling key queue messages).Sound messages := by
  cases clientAsync with
  | true =>
    cases hpolling rfl
    exact TalkCall.sound key queue messages
  | false => exact ChatClient.sound messages

theorem serverEnd_sound (serverAsync : Bool) (cq : Nat) (key : EventKey) : (serverEnd serverAsync cq key).Sound := by
  cases serverAsync with
  | true => exact (TalkHandler.follows cq key).sound
  | false => exact ChatServiceImpl.follows.sound

/-- Before the call nothing has broken down. -/
theorem holds_start :
    Holds (C := clientEnd clientAsync polling clientKey queue messages) (S := serverEnd serverAsync cq serverKey)
      ⟨starts _ _, fun _ _ => []⟩ := by
  cases clientAsync <;> cases serverAsync <;> exact ⟨rfl, rfl⟩

/-- Whatever the threads of the client, the server and the connection do, and whenever the connection breaks down. -/
theorem talk_echoes {n : Net (clientEnd clientAsync polling clientKey queue messages) (serverEnd serverAsync cq serverKey)}
    (h : (talk _ _).Reach (starts _ _) n) : Echoed messages n :=
  echoes_of_sound (clientEnd_safe clientAsync polling clientKey queue messages)
    (serverEnd_sound serverAsync cq serverKey) h

/-- As long as the connection holds the call gets to its end, whichever thread goes first, if and only if the poller of
    its queue, where there is one, has not left its loop before the call. -/
theorem talk_completes (clientAsync polling serverAsync : Bool) (clientKey serverKey : EventKey) (queue : Int) (cq : Nat)
    (messages : List String) :
    Inevitable Proceeds Proceeds (Complete messages)
      (⟨starts _ _, fun _ _ => []⟩ :
        Net (clientEnd clientAsync polling clientKey queue messages) (serverEnd serverAsync cq serverKey)) ↔
      (clientAsync = true → polling = true) := by
  have hserver := serverEnd_sound serverAsync cq serverKey
  constructor
  · rintro hend rfl
    obtain ⟨n, hreach, hcomplete⟩ := hend.exists_of_inv (I := (talk _ _).Reach (starts _ _))
      (fun _ _ h => h) (fun _ _ h hgo => h.goes hgo.1) .start
    by_contra hleft
    cases Bool.eq_false_of_not_eq_true hleft
    -- The call is still in the table.
    have hsafe := clientEnd_safe true false clientKey queue messages
    obtain ⟨-, hclient, -⟩ := reach_ends hsafe.lawful hserver.lawful hreach
    obtain ⟨-, -, -, hgone⟩ := hcomplete.client
    cases hgone.symm.trans (TalkCall.forgotten_of_reach hclient).2
  · intro hpolling
    exact complete_of_sound (clientEnd_sound hpolling clientKey queue messages) hserver .start holds_start

end Pairings

/-- The numbers of the blocking client go to a handler of the asynchronous server and come back. -/
theorem talk_echoes_numbers : ∃ n : Net (clientEnd false true 1 0 ChatClient.messages) (serverEnd true 0 1),
    (clientEnd false true 1 0 ChatClient.messages).printed (client n) =
        ["0", "1", "2", "3", "4", "5", "6", "7", "8", "9"] ∧
      Echoed ChatClient.messages n := by
  have hend := complete_of_sound (clientEnd_sound (fun _ => rfl) 1 0 ChatClient.messages) (serverEnd_sound true 0 1)
    .start (@holds_start false true true 1 1 0 0 ChatClient.messages)
  obtain ⟨n, hreach, hcomplete⟩ := hend.exists_of_inv (I := (talk _ _).Reach (starts _ _))
    (fun _ _ h => h) (fun _ _ h hgo => h.goes hgo.1) .start
  exact ⟨n, hcomplete.printed.trans (by decide), talk_echoes hreach⟩

end HelloWorld.Talk
