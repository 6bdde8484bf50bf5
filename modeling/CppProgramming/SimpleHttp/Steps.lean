import CppProgramming.SimpleHttp.Effects

/-! # What a step of the manager can do

`FrameStep` lists the steps of the innermost function of a thread with what they find in the shared state;
`Thread.step_cases` says that a step of a thread is one of them. Every invariant is proved from this list,
by adding up a weight of the functions on the call stacks (`State.count`). -/

namespace SimpleHttp
open Interleaving

variable {R : RequestHandler}

/-- The second atomic is read, and gives `b` with what was read before. -/
def Sees (x : Connection R) (d : Side) (p : EventPc) (b : Bool) : Prop :=
  match p with
  | .start => False
  | .counter a => (a ||| x.errorCode.toInt != 0) = b
  | .error e => (x.happened d ||| e != 0) = b

/-- The innermost function `f` does `a` and is replaced by the functions `fs`. -/
inductive FrameStep (s : Shared R) (result : Bool) : Frame R → Act R → List (Frame R) → Prop
  | checkLock {k d c} : s.protect d = false →
      FrameStep s result (.check k d c .lock) (.lock d) [.check k d c (.event .start)]
  | checkCounter {k d c} : FrameStep s result (.check k d c (.event .start)) .look
      [.check k d c (.event (.counter ((s.conn c).happened d)))]
  | checkError {k d c} : FrameStep s result (.check k d c (.event .start)) .look
      [.check k d c (.event (.error (s.conn c).errorCode.toInt))]
  | checkSeen {k c p b} : Sees (s.conn c) .read p b →
      FrameStep s result (.check k .read c (.event p)) .look [.check k .read c (.test b)]
  | checkEvent {k c p} : Sees (s.conn c) .write p true →
      FrameStep s result (.check k .write c (.event p)) .look [.check k .write c .content]
  | checkNoEvent {k c p} : Sees (s.conn c) .write p false →
      FrameStep s result (.check k .write c (.event p)) .look [.check k .write c .readWaiting]
  | checkContent {k d c} : s.hasContentToWrite c = true →
      FrameStep s result (.check k d c .content) .look [.check k d c (.test true)]
  | checkNoContent {k d c} : s.hasContentToWrite c = false →
      FrameStep s result (.check k d c .content) .look [.check k d c .readWaiting]
  | checkRead {k d c} : R.isReadWaiting (s.conn c).handler = true →
      FrameStep s result (.check k d c .readWaiting) .look [.check k d c (.test false)]
  | checkNotRead {k d c} : R.isReadWaiting (s.conn c).handler = false →
      FrameStep s result (.check k d c .readWaiting) .look [.check k d c .writeWaiting]
  | checkWrite {k d c} : FrameStep s result (.check k d c .writeWaiting) .look
      [.check k d c (.test (!R.isWriteWaiting (s.conn c).handler))]
  | checkEnlist {k d c} : (s.conn c).busy d = false →
      FrameStep s result (.check k d c (.test true)) (.enlist d c) [.check k d c .inQueue]
  | checkUnlock {k d c b} : b = false ∨ (s.conn c).busy d = true →
      FrameStep s result (.check k d c (.test b)) (.unlock d) []
  | checkInQueue {k d c} : FrameStep s result (.check k d c .inQueue) (.inQueue d c) [.check k d c .notify]
  | checkNotify {k d c} : FrameStep s result (.check k d c .notify) (.notify d) []
  | recheckLock {d c} : s.protect d = false → FrameStep s result (.recheck d c .lock) (.lock d) [.recheck d c .busy]
  | recheckBusy {d c} : (s.conn c).busy d = true →
      FrameStep s result (.recheck d c .busy) .look [.recheck d c (.event .start)]
  | recheckCounter {d c} : FrameStep s result (.recheck d c (.event .start)) .look
      [.recheck d c (.event (.counter ((s.conn c).happened d)))]
  | recheckError {d c} : FrameStep s result (.recheck d c (.event .start)) .look
      [.recheck d c (.event (.error (s.conn c).errorCode.toInt))]
  | recheckSeen {c p b} : Sees (s.conn c) .read p b →
      FrameStep s result (.recheck .read c (.event p)) .look [.recheck .read c (.test b)]
  | recheckEvent {c p} : Sees (s.conn c) .write p true →
      FrameStep s result (.recheck .write c (.event p)) .look [.recheck .write c .content]
  | recheckNoEvent {c p} : Sees (s.conn c) .write p false →
      FrameStep s result (.recheck .write c (.event p)) .look [.recheck .write c (.test false)]
  | recheckContent {d c} : FrameStep s result (.recheck d c .content) .look
      [.recheck d c (.test (s.hasContentToWrite c))]
  | recheckAgain {d c} : FrameStep s result (.recheck d c (.test true)) (.unlock d) [.recheck d c .inQueue]
  | recheckStop {d c} : FrameStep s result (.recheck d c (.test false)) (.delist d c) []
  | recheckInQueue {d c} : FrameStep s result (.recheck d c .inQueue) (.inQueue d c) []
  | addContent {c content} : FrameStep s result (.addCache c (.add content)) (.addCache c content)
      [.addCache c .getValue]
  | addGetValue {c} : s.connectionMap c = true →
      FrameStep s result (.addCache c .getValue) .look [.check .content .write c .lock]
  | callbackRet {c p h v} : R.exec (s.conn c).handler p = .ret h v →
      FrameStep s result (.callback c p) (.setHandler c h) []
  | callbackGoto {c p h p'} : R.exec (s.conn c).handler p = .goto h p' →
      FrameStep s result (.callback c p) (.setHandler c h) [.callback c p']
  | callbackWrite {c p h content p'} : R.exec (s.conn c).handler p = .write h content p' →
      FrameStep s result (.callback c p) (.setHandler c h) [.addCache c (.add content), .callback c p']
  | closeStart {c} : FrameStep s result (.close c .start) (.close c) [.close c .epDelete]
  | closeEpDelete {c} : FrameStep s result (.close c .epDelete) (.closeCallback c) [.close c .closeFd]
  | closeCloseFd {c} : FrameStep s result (.close c .closeFd) (.closeCallback c) [.close c .mapDelete]
  | closeMapDelete {c} : FrameStep s result (.close c .mapDelete) (.closeCallback c) [.close c .release]
  | closeRelease {c} : FrameStep s result (.close c .release) (.release c) [.close c .setClosed]
  | closeSetClosed {c} : FrameStep s result (.close c .setClosed) (.setClosed c) []
  | errorNone {d c} : (s.conn c).errorCode = .noError → FrameStep s result (.onError d c .test) .look []
  | errorSome {d c} : (s.conn c).errorCode ≠ .noError →
      FrameStep s result (.onError d c .test) .look [.onError d c .argument]
  | errorArgument {d c} : FrameStep s result (.onError d c .argument) .look
      [.callback c (completeCallback d (s.conn c).errorCode), .close c .start]
  | finishRead {d c} : R.isReadWaiting (s.conn c).handler = true →
      FrameStep s result (.finish d c .readWaiting) .look []
  | finishNotRead {d c} : R.isReadWaiting (s.conn c).handler = false →
      FrameStep s result (.finish d c .readWaiting) .look [.finish d c .writeWaiting]
  | finishWrite {d c} : R.isWriteWaiting (s.conn c).handler = true →
      FrameStep s result (.finish d c .writeWaiting) .look []
  | finishIdle {d c} : R.isWriteWaiting (s.conn c).handler = false →
      FrameStep s result (.finish d c .writeWaiting) (.idle d c) [.close c .start]
  | readNone {c} : (s.conn c).happened .read = 0 → FrameStep s result (.read c .readable) .look []
  | readSome {c} : (s.conn c).happened .read ≠ 0 → FrameStep s result (.read c .readable) .look [.read c .take]
  | readTake {c} : FrameStep s result (.read c .take) (.take .read c) [.read c (.socket [])]
  | readData {c received more} : FrameStep s result (.read c (.socket received)) (.readSocket c)
      [.read c (.socket (received ++ more))]
  | readEnd {c received} : FrameStep s result (.read c (.socket received)) (.readSocket c)
      [.callback c (R.appendReceivedData received), .read c .integrity]
  | readIntegrity {c} : FrameStep s result (.read c .integrity) .look
      [.callback c R.checkDataIntegrity, .read c .complete]
  | readComplete {c} : result = true → FrameStep s result (.read c .complete) .look
      [.callback c (R.readCompleteCallback .noError), .finish .read c .readWaiting]
  | readIncomplete {c} : result = false → FrameStep s result (.read c .complete) .look [.finish .read c .readWaiting]
  | loadGet {c} : FrameStep s result (.load c .get) (.getCache c) [.load c (.setResponse (s.cached c))]
  | loadSet {c content} : FrameStep s result (.load c (.setResponse content)) (.setResponse c content)
      [.onError .write c .test, .write c .writable]
  | writeNone {c} : (s.conn c).happened .write = 0 → FrameStep s result (.write c .writable) .look []
  | writeSome {c} : (s.conn c).happened .write ≠ 0 → FrameStep s result (.write c .writable) .look [.write c .take]
  | writeTake {c} : FrameStep s result (.write c .take) (.take .write c) [.write c .empty]
  | writeEmpty {c} : (s.conn c).response = [] → FrameStep s result (.write c .empty) .look []
  | writeBegin {c} : (s.conn c).response ≠ [] →
      FrameStep s result (.write c .empty) .look [.write c (.socket (s.conn c).response)]
  | writeSent {c} : FrameStep s result (.write c (.socket [])) .look [.write c (.store [])]
  | writeAccept {c rest n} : rest ≠ [] → n ≤ rest.length →
      FrameStep s result (.write c (.socket rest)) (.writeSocket c (rest.take n)) [.write c (.socket (rest.drop n))]
  | writeAgain {c rest} : rest ≠ [] →
      FrameStep s result (.write c (.socket rest)) (.writeSocket c []) [.write c (.store rest)]
  | writeAll {c} : FrameStep s result (.write c (.store [])) (.store c [])
      [.callback c (R.writeCompleteCallback .noError), .finish .write c .readWaiting]
  | writeRest {c rest} : rest ≠ [] →
      FrameStep s result (.write c (.store rest)) (.store c rest) [.finish .write c .readWaiting]
  | workerRunning {d} : FrameStep s result (.worker d .running) .look
      [.worker d (if s.closed then .leave else .wait)]
  | workerWait {d} : s.signaled d = true → FrameStep s result (.worker d .wait) (.wake d) [.worker d .loop]
  | workerLoop {d} : FrameStep s result (.worker d .loop) .look
      [.worker d (if s.closed then .running else .deQueue)]
  | workerBreak {d} : s.queue d = [] → FrameStep s result (.worker d .deQueue) .look [.worker d .running]
  | workerRead {c q} : s.queue .read = c :: q → FrameStep s result (.worker .read .deQueue) (.deQueue .read c)
      [.onError .read c .test, .read c .readable, .recheck .read c .lock, .worker .read .loop]
  | workerWrite {c q} : s.queue .write = c :: q → FrameStep s result (.worker .write .deQueue) (.deQueue .write c)
      [.load c .get, .recheck .write c .lock, .worker .write .loop]
  | workerLeave {d} : FrameStep s result (.worker d .leave) (.notify d) []
  | reportGone {r c} : s.connectionMap c = false → FrameStep s result (.report r c .getValue) .look []
  | reportFound {r c} : s.connectionMap c = true →
      FrameStep s result (.report r c .getValue) .look [.report r c .set]
  | reportCanRead {c} : FrameStep s result (.report .canRead c .set) (.happen .read c) [.check .event .read c .lock]
  | reportCanWrite {c} : FrameStep s result (.report .canWrite c .set) (.happen .write c)
      [.check .event .write c .lock]
  | reportError {c} : FrameStep s result (.report .errorOccurred c .set) (.setError c .socketError)
      [.check .error .read c .lock, .report .errorOccurred c .checkWrite]
  | reportExit {c} : FrameStep s result (.report .timeToExit c .set) (.setError c .socketClosed)
      [.check .error .read c .lock, .report .timeToExit c .checkWrite]
  | reportCheckWrite {r c} : FrameStep s result (.report r c .checkWrite) .look [.check .error .write c .lock]
  | newConnection : FrameStep s result .newConnection .register []
  | shutClosed : s.closed = true → FrameStep s result (.shut .test) .look []
  | shutTest : s.closed = false → FrameStep s result (.shut .test) .look [.shut .set]
  | shutSet : FrameStep s result (.shut .set) .shut [.shut .notifyWrite]
  | shutNotifyWrite : FrameStep s result (.shut .notifyWrite) (.notify .write) [.shut .notifyRead]
  | shutNotifyRead : FrameStep s result (.shut .notifyRead) (.notify .read) []
  | foreign : FrameStep s result .foreign .look []

section Inversion
variable {s : Shared R} {o : Choice} {result : Bool} {a : Act R} {r : Outcome R}

/-- An outcome as the functions that replace the one that took the step; `none` for an exception. -/
def Outcome.frames : Outcome R → Option (List (Frame R))
  | .next fs => some fs
  | .ret _ => some []
  | .throw => none

theorem check_seen {k : Cause} {d : Side} {c : ConnId} {p : EventPc} {b : Bool} (h : Sees (s.conn c) d p b) :
    FrameStep s result (.check k d c (.event p)) .look [.check k d c (CheckPc.afterEvent d b)] := by
  cases d with
  | read => exact .checkSeen h
  | write =>
    cases b with
    | true => exact .checkEvent h
    | false => exact .checkNoEvent h

theorem recheck_seen {d : Side} {c : ConnId} {p : EventPc} {b : Bool} (h : Sees (s.conn c) d p b) :
    FrameStep s result (.recheck d c (.event p)) .look [.recheck d c (RecheckPc.afterEvent d b)] := by
  cases d with
  | read => exact .recheckSeen h
  | write =>
    cases b with
    | true => exact .recheckEvent h
    | false => exact .recheckNoEvent h

theorem checkToInQueue_cases {k : Cause} {d : Side} {c : ConnId} {p : CheckPc} {fs : List (Frame R)}
    (h : checkToInQueue s o k d c p = some (a, r)) (hr : r.frames = some fs) :
    FrameStep s result (.check k d c p) a fs := by
  cases p with
  | lock =>
    simp only [checkToInQueue] at h
    split at h
    · cases h
    · next hp =>
      cases h
      cases hr
      exact .checkLock (by simpa using hp)
  | event p =>
    cases p with
    | start =>
      simp only [checkToInQueue, eventHappend] at h
      cases o <;> (cases h; cases hr) <;> first | exact .checkCounter | exact .checkError
    | counter b =>
      cases h
      cases hr
      exact check_seen rfl
    | error e =>
      cases h
      cases hr
      exact check_seen rfl
  | content =>
    cases h
    cases hr
    cases hc : s.hasContentToWrite c with
    | true => exact .checkContent hc
    | false => exact .checkNoContent hc
  | readWaiting =>
    cases h
    cases hr
    cases hw : R.isReadWaiting (s.conn c).handler with
    | true => exact .checkRead hw
    | false => exact .checkNotRead hw
  | writeWaiting =>
    cases h
    cases hr
    exact .checkWrite
  | test b =>
    simp only [checkToInQueue] at h
    split at h
    · next hb =>
      cases h
      cases hr
      simp only [Bool.and_eq_true, Bool.not_eq_true'] at hb
      obtain ⟨rfl, hbusy⟩ := hb
      exact .checkEnlist hbusy
    · next hb =>
      cases h
      cases hr
      refine .checkUnlock ?_
      cases b
      · exact Or.inl rfl
      · exact Or.inr (by simpa using hb)
  | inQueue =>
    cases h
    cases hr
    exact .checkInQueue
  | notify =>
    cases h
    cases hr
    exact .checkNotify

theorem needReInQueue_cases {d : Side} {c : ConnId} {p : RecheckPc} {fs : List (Frame R)}
    (h : needReInQueue s o d c p = some (a, r)) (hr : r.frames = some fs) :
    FrameStep s result (.recheck d c p) a fs := by
  cases p with
  | lock =>
    simp only [needReInQueue] at h
    split at h
    · cases h
    · next hp =>
      cases h
      cases hr
      exact .recheckLock (by simpa using hp)
  | busy =>
    simp only [needReInQueue] at h
    split at h
    · next hb =>
      cases h
      cases hr
      exact .recheckBusy hb
    · cases h
      cases hr
  | event p =>
    cases p with
    | start =>
      simp only [needReInQueue, eventHappend] at h
      cases o <;> (cases h; cases hr) <;> first | exact .recheckCounter | exact .recheckError
    | counter b =>
      cases h
      cases hr
      exact recheck_seen rfl
    | error e =>
      cases h
      cases hr
      exact recheck_seen rfl
  | content =>
    cases h
    cases hr
    exact .recheckContent
  | test b =>
    cases b <;> (cases h; cases hr) <;> first | exact .recheckStop | exact .recheckAgain
  | inQueue =>
    cases h
    cases hr
    exact .recheckInQueue

theorem addToWriteCache_cases {c : ConnId} {p : AddPc} {fs : List (Frame R)}
    (h : addToWriteCache s c p = some (a, r)) (hr : r.frames = some fs) :
    FrameStep s result (.addCache c p) a fs := by
  cases p with
  | add content =>
    cases h
    cases hr
    exact .addContent
  | getValue =>
    simp only [addToWriteCache] at h
    split at h
    · next hc =>
      cases h
      cases hr
      exact .addGetValue hc
    · cases h
      cases hr

theorem callback_cases {c : ConnId} {p : R.Pc} {fs : List (Frame R)} (h : callback s c p = some (a, r))
    (hr : r.frames = some fs) : FrameStep s result (.callback c p) a fs := by
  unfold callback at h
  split at h
  · next hx =>
    cases h
    cases hr
    exact .callbackRet hx
  · cases h
    cases hr
  · next hx =>
    cases h
    cases hr
    exact .callbackGoto hx
  · next hx =>
    cases h
    cases hr
    exact .callbackWrite hx

theorem closeCallback_eq_some {c : ConnId} {p : ClosePc} {fs : List (Frame R)}
    (h : closeCallback o c p = some (a, r)) (hr : r.frames = some fs) : a = .closeCallback c ∧ fs = [.close c p] := by
  unfold closeCallback at h
  split at h <;> cases h <;> cases hr
  exact ⟨rfl, rfl⟩

theorem close_cases {c : ConnId} {p : ClosePc} {fs : List (Frame R)} (h : close o c p = some (a, r))
    (hr : r.frames = some fs) : FrameStep s result (.close c p) a fs := by
  cases p with
  | start =>
    cases h
    cases hr
    exact .closeStart
  | epDelete =>
    obtain ⟨rfl, rfl⟩ := closeCallback_eq_some h hr
    exact .closeEpDelete
  | closeFd =>
    obtain ⟨rfl, rfl⟩ := closeCallback_eq_some h hr
    exact .closeCloseFd
  | mapDelete =>
    obtain ⟨rfl, rfl⟩ := closeCallback_eq_some h hr
    exact .closeMapDelete
  | release =>
    cases h
    cases hr
    exact .closeRelease
  | setClosed =>
    cases h
    cases hr
    exact .closeSetClosed

theorem onError_cases {d : Side} {c : ConnId} {p : ErrorPc} {fs : List (Frame R)}
    (h : onError s d c p = some (a, r)) (hr : r.frames = some fs) : FrameStep s result (.onError d c p) a fs := by
  cases p with
  | test =>
    simp only [onError] at h
    split at h
    · next he =>
      cases h
      cases hr
      exact .errorNone he
    · next he =>
      cases h
      cases hr
      exact .errorSome he
  | argument =>
    cases h
    cases hr
    exact .errorArgument

theorem finish_cases {d : Side} {c : ConnId} {p : FinishPc} {fs : List (Frame R)}
    (h : finish s d c p = some (a, r)) (hr : r.frames = some fs) : FrameStep s result (.finish d c p) a fs := by
  cases p with
  | readWaiting =>
    simp only [finish] at h
    split at h
    · next hw =>
      cases h
      cases hr
      exact .finishRead hw
    · next hw =>
      cases h
      cases hr
      exact .finishNotRead (by simpa using hw)
  | writeWaiting =>
    simp only [finish] at h
    split at h
    · next hw =>
      cases h
      cases hr
      exact .finishWrite hw
    · next hw =>
      cases h
      cases hr
      exact .finishIdle (by simpa using hw)

theorem read_cases {c : ConnId} {p : ReadPc} {fs : List (Frame R)} (h : read s o result c p = some (a, r))
    (hr : r.frames = some fs) : FrameStep s result (.read c p) a fs := by
  cases p with
  | readable =>
    simp only [read] at h
    split at h
    · next hz =>
      cases h
      cases hr
      exact .readNone hz
    · next hz =>
      cases h
      cases hr
      exact .readSome hz
  | take =>
    cases h
    cases hr
    exact .readTake
  | socket received =>
    cases o with
    | data bytes tail =>
      simp only [read] at h
      split at h
      · cases h
        cases hr
        exact .readData
      · cases h
    | eof =>
      cases h
      cases hr
      exact .readEnd
    | again =>
      cases h
      cases hr
      exact .readEnd
    | fail =>
      cases h
      cases hr
    | go => cases h
    | errorFirst => cases h
    | accepted n => cases h
  | integrity =>
    cases h
    cases hr
    exact .readIntegrity
  | complete =>
    cases result <;> (cases h; cases hr) <;> first | exact .readIncomplete rfl | exact .readComplete rfl

theorem load_cases {c : ConnId} {p : LoadPc} {fs : List (Frame R)} (h : load s c p = some (a, r))
    (hr : r.frames = some fs) : FrameStep s result (.load c p) a fs := by
  cases p <;> (cases h; cases hr) <;> first | exact .loadGet | exact .loadSet

theorem write_cases {c : ConnId} {p : WritePc} {fs : List (Frame R)} (h : write s o c p = some (a, r))
    (hr : r.frames = some fs) : FrameStep s result (.write c p) a fs := by
  cases p with
  | writable =>
    simp only [write] at h
    split at h
    · next hz =>
      cases h
      cases hr
      exact .writeNone hz
    · next hz =>
      cases h
      cases hr
      exact .writeSome hz
  | take =>
    cases h
    cases hr
    exact .writeTake
  | empty =>
    simp only [write] at h
    split at h
    · next he =>
      cases h
      cases hr
      exact .writeEmpty he
    · next he =>
      cases h
      cases hr
      exact .writeBegin he
  | socket rest =>
    simp only [write] at h
    split at h
    · next he =>
      subst he
      cases h
      cases hr
      exact .writeSent
    · next he =>
      cases o with
      | accepted n =>
        simp only at h
        split at h
        · next hn =>
          cases h
          cases hr
          exact .writeAccept he hn
        · cases h
      | again =>
        cases h
        cases hr
        exact .writeAgain he
      | fail =>
        cases h
        cases hr
      | go => cases h
      | errorFirst => cases h
      | data bytes tail => cases h
      | eof => cases h
  | store rest =>
    simp only [write] at h
    split at h
    · next he =>
      subst he
      cases h
      cases hr
      exact .writeAll
    · next he =>
      cases h
      cases hr
      exact .writeRest he

theorem process_cases {d : Side} {p : WorkerPc} {fs : List (Frame R)} (h : process s d p = some (a, r))
    (hr : r.frames = some fs) : FrameStep s result (.worker d p) a fs := by
  cases p with
  | running =>
    cases h
    cases hr
    exact .workerRunning
  | wait =>
    simp only [process] at h
    split at h
    · next hs =>
      cases h
      cases hr
      exact .workerWait hs
    · cases h
  | loop =>
    cases h
    cases hr
    exact .workerLoop
  | deQueue =>
    simp only [process] at h
    split at h
    · next hq =>
      cases h
      cases hr
      exact .workerBreak hq
    · next hq =>
      cases h
      cases hr
      exact .workerRead hq
    · next hq =>
      cases h
      cases hr
      exact .workerWrite hq
  | leave =>
    cases h
    cases hr
    exact .workerLeave

theorem report_cases {rep : Report} {c : ConnId} {p : ReportPc} {fs : List (Frame R)}
    (h : report s rep c p = some (a, r)) (hr : r.frames = some fs) : FrameStep s result (.report rep c p) a fs := by
  cases p with
  | getValue =>
    simp only [report] at h
    split at h
    · next hc =>
      cases h
      cases hr
      exact .reportFound hc
    · next hc =>
      cases h
      cases hr
      exact .reportGone (by simpa using hc)
  | set =>
    cases rep <;> (cases h; cases hr)
    · exact .reportCanRead
    · exact .reportCanWrite
    · exact .reportError
    · exact .reportExit
  | checkWrite =>
    cases h
    cases hr
    exact .reportCheckWrite

theorem shut_cases {p : ShutPc} {fs : List (Frame R)} (h : shut s p = some (a, r)) (hr : r.frames = some fs) :
    FrameStep s result (.shut p) a fs := by
  cases p with
  | test =>
    simp only [shut] at h
    split at h
    · next hc =>
      cases h
      cases hr
      exact .shutClosed hc
    · next hc =>
      cases h
      cases hr
      exact .shutTest (by simpa using hc)
  | set =>
    cases h
    cases hr
    exact .shutSet
  | notifyWrite =>
    cases h
    cases hr
    exact .shutNotifyWrite
  | notifyRead =>
    cases h
    cases hr
    exact .shutNotifyRead

/-- A step of a function that does not end in an exception is one of `FrameStep`. -/
theorem Frame.step_cases {f : Frame R} {fs : List (Frame R)} (h : f.step s o result = some (a, r))
    (hr : r.frames = some fs) : FrameStep s result f a fs := by
  cases f with
  | check k d c p => exact checkToInQueue_cases h hr
  | recheck d c p => exact needReInQueue_cases h hr
  | addCache c p => exact addToWriteCache_cases h hr
  | callback c p => exact callback_cases h hr
  | close c p => exact close_cases h hr
  | onError d c p => exact onError_cases h hr
  | finish d c p => exact finish_cases h hr
  | read c p => exact read_cases h hr
  | load c p => exact load_cases h hr
  | write c p => exact write_cases h hr
  | worker d p => exact process_cases h hr
  | report rep c p => exact report_cases h hr
  | newConnection =>
    cases h
    cases hr
    exact .newConnection
  | shut p => exact shut_cases h hr
  | foreign =>
    cases h
    cases hr
    exact .foreign

/-- A step of a thread: its innermost function takes one of the steps above, an exception ends the process,
    or a thread of the request handler goes on after the exception of `AddToWriteCache`. -/
inductive ThreadStep (s : Shared R) (t : Thread R) : Act R → Thread R → Prop
  | frame {f : Frame R} {rest fs : List (Frame R)} {a : Act R} {v : Bool} : t.frames = f :: rest →
      FrameStep s t.result f a fs → ThreadStep s t a ⟨fs ++ rest, v⟩
  | crash : ThreadStep s t .terminate t
  | caught {c : ConnId} {v : Bool} : t.frames = [.addCache c .getValue, .foreign] → ThreadStep s t .look ⟨[], v⟩

theorem Thread.step_cases {t t' : Thread R} (h : t.step s o = some (a, t')) : ThreadStep s t a t' := by
  unfold Thread.step at h
  split at h
  · cases h
  · next f rest ht =>
    split at h
    · cases h
    · next a' fs hf =>
      cases h
      exact .frame ht (Frame.step_cases hf rfl)
    · next a' v hf =>
      cases h
      exact .frame ht (Frame.step_cases hf rfl)
    · split at h
      · cases h
        exact .caught ht
      · cases h
        exact .crash

end Inversion

theorem Call.enter_cases {k : Call} {t : Thread R} (h : k.enter R = some t) :
    (k = .newConnection ∧ t = ⟨[.newConnection], false⟩) ∨
    (∃ r c, k = .report r c ∧ t = ⟨[.report r c .getValue], false⟩) ∨
    (∃ c content, R.spontaneous = true ∧ k = .write c content ∧ t = ⟨[.addCache c (.add content), .foreign], false⟩) ∨
    (k = .close ∧ t = ⟨[.shut .test], false⟩) := by
  cases k with
  | newConnection =>
    cases h
    exact Or.inl ⟨rfl, rfl⟩
  | report r c =>
    cases h
    exact Or.inr (Or.inl ⟨r, c, rfl, rfl⟩)
  | write c content =>
    simp only [Call.enter] at h
    split at h
    · next hR =>
      cases h
      exact Or.inr (Or.inr (Or.inl ⟨c, content, hR, rfl, rfl⟩))
    · cases h
  | close =>
    cases h
    exact Or.inr (Or.inr (Or.inr ⟨rfl, rfl⟩))

/-! ### Counting functions -/

/-- The sum of a weight over the call stack of a thread. -/
def Thread.sum (w : Frame R → Nat) (t : Thread R) : Nat := (t.frames.map w).sum

/-- The sum of a weight over all call stacks. -/
def State.count (s : State R) (w : Frame R → Nat) : Nat := s.weight (Thread.sum w)

section Count
variable {s : State R} {i : Nat} {t : Thread R} {f : Frame R} {rest fs : List (Frame R)}

theorem State.count_frame (w : Frame R → Nat) (x : Shared R) (fs : List (Frame R)) (v : Bool)
    (hi : s.threads[i]? = some t) (ht : t.frames = f :: rest) :
    State.count ⟨x, s.threads.set i ⟨fs ++ rest, v⟩⟩ w + w f = s.count w + (fs.map w).sum := by
  have h := Config.weight_run (Thread.sum w) x ⟨fs ++ rest, v⟩ hi
  simp only [Thread.sum, ht, List.map_append, List.sum_append, List.map_cons, List.sum_cons] at h
  simp only [State.count]
  omega

theorem State.count_caught (w : Frame R → Nat) {x : Shared R} {v : Bool} {c : ConnId} (hi : s.threads[i]? = some t)
    (ht : t.frames = [.addCache c .getValue, .foreign]) :
    State.count ⟨x, s.threads.set i ⟨[], v⟩⟩ w + (w (.addCache c .getValue) + w .foreign) = s.count w := by
  have h := Config.weight_run (Thread.sum w) x ⟨[], v⟩ hi
  simp only [Thread.sum, ht, List.map_cons, List.map_nil, List.sum_cons, List.sum_nil] at h
  simp only [State.count]
  omega

theorem State.count_enter (w : Frame R → Nat) (s : State R) (t : Thread R) :
    State.count ⟨s.shared, s.threads ++ [t]⟩ w = s.count w + t.sum w :=
  Config.weight_enter _ s t

theorem Thread.le_sum {w : Frame R → Nat} (hf : f ∈ t.frames) : w f ≤ t.sum w :=
  List.single_le_sum (fun _ _ => Nat.zero_le _) _ (List.mem_map_of_mem hf)

theorem State.le_count {w : Frame R → Nat} (ht : t ∈ s.threads) (hf : f ∈ t.frames) : w f ≤ s.count w :=
  Nat.le_trans (Thread.le_sum hf) (Config.le_weight (f := Thread.sum w) ht)

theorem State.thread_unique {w : Frame R → Nat} (h : s.count w ≤ 1) {j : Nat} {u : Thread R} {g : Frame R}
    (hi : s.threads[i]? = some t) (hj : s.threads[j]? = some u) (hf : f ∈ t.frames) (hg : g ∈ u.frames)
    (hwf : 0 < w f) (hwg : 0 < w g) : i = j := by
  by_contra hne
  have hsum := Config.add_le_weight (f := Thread.sum w) hi hj hne
  have hft := Thread.le_sum (w := w) hf
  have hgu := Thread.le_sum (w := w) hg
  simp only [State.count] at h
  omega

theorem State.count_pos {w : Frame R → Nat} :
    0 < s.count w ↔ ∃ t ∈ s.threads, ∃ f ∈ t.frames, 0 < w f := by
  constructor
  · intro h
    obtain ⟨t, ht, hpos⟩ := Config.weight_pos.mp h
    by_contra hno
    have hzero : ∀ n ∈ t.frames.map w, n = 0 := by
      intro n hn
      obtain ⟨f, hf, rfl⟩ := List.mem_map.mp hn
      by_contra hne
      exact hno ⟨t, ht, f, hf, Nat.pos_of_ne_zero hne⟩
    have : t.sum w = 0 := List.sum_eq_zero hzero
    omega
  · rintro ⟨t, ht, f, hf, hpos⟩
    exact Nat.lt_of_lt_of_le hpos (State.le_count ht hf)

theorem State.count_lt_count {w w' : Frame R → Nat} (h : ∀ f, w f ≤ w' f) (ht : t ∈ s.threads) (hf : f ∈ t.frames)
    (hlt : w f < w' f) : s.count w < s.count w' :=
  Config.weight_lt_weight (fun _ => List.sum_le_sum fun f _ => h f) ht
    (List.sum_lt_sum _ _ (fun f _ => h f) ⟨f, hf, hlt⟩)

theorem State.count_add (w w' : Frame R → Nat) (s : State R) :
    s.count (fun f => w f + w' f) = s.count w + s.count w' := by
  unfold State.count
  rw [← Config.weight_add]
  congr 1
  funext t
  exact List.sum_map_add

/-- A weight of functions that no thread starts with. -/
structure Inner (w : Frame R → Nat) : Prop where
  worker : ∀ d, w (.worker d .running) = 0
  newConnection : w .newConnection = 0
  report : ∀ r c, w (.report r c .getValue) = 0
  addCache : ∀ c p, w (.addCache c p) = 0
  foreign : w .foreign = 0
  shut : w (.shut .test) = 0

theorem State.count_start {w : Frame R → Nat} (hw : ∀ d, w (.worker d .running) = 0) (closed : Bool)
    (readers writers : Nat) : (start R closed readers writers).count w = 0 := by
  simp [State.count, Config.weight, start, Thread.sum, hw]

theorem Inner.count_start {w : Frame R → Nat} (h : Inner w) (closed : Bool) (readers writers : Nat) :
    (start R closed readers writers).count w = 0 := State.count_start h.worker closed readers writers

theorem Inner.count_enter {w : Frame R → Nat} (h : Inner w) (s : State R) {k : Call} (hk : k.enter R = some t) :
    State.count ⟨s.shared, s.threads ++ [t]⟩ w = s.count w := by
  rw [State.count_enter]
  rcases Call.enter_cases hk with ⟨-, rfl⟩ | ⟨r, c, -, rfl⟩ | ⟨c, content, -, -, rfl⟩ | ⟨-, rfl⟩
  · simp [Thread.sum, h.newConnection]
  · simp [Thread.sum, h.report]
  · simp [Thread.sum, h.addCache, h.foreign]
  · simp [Thread.sum, h.shut]

theorem Inner.count_caught {w : Frame R → Nat} (h : Inner w) {x : Shared R} {v : Bool} {c : ConnId}
    (hi : s.threads[i]? = some t) (ht : t.frames = [.addCache c .getValue, .foreign]) :
    State.count ⟨x, s.threads.set i ⟨[], v⟩⟩ w = s.count w := by
  have := State.count_caught w (x := x) (v := v) hi ht
  rwa [h.addCache, h.foreign] at this

end Count

/-! ### Functions on the stacks -/

/-- `f` is on the call stack of thread `i`. -/
def State.At (s : State R) (i : Nat) (f : Frame R) : Prop := ∃ t, s.threads[i]? = some t ∧ f ∈ t.frames

section At
variable {s : State R} {i j : Nat} {t : Thread R} {f g : Frame R} {rest fs : List (Frame R)} {x : Shared R} {v : Bool}

/-- A function on the stacks after a step is one of the new ones, or was there before. -/
theorem State.at_frame (hi : s.threads[i]? = some t) (ht : t.frames = f :: rest)
    (h : State.At ⟨x, s.threads.set i ⟨fs ++ rest, v⟩⟩ j g) : g ∈ fs ∧ j = i ∨ s.At j g ∧ (j = i → g ∈ rest) := by
  obtain ⟨u, hu, hg⟩ := h
  simp only [List.getElem?_set] at hu
  split at hu
  · next hij =>
    subst hij
    split at hu
    · cases hu
      rcases List.mem_append.mp hg with hg | hg
      · exact Or.inl ⟨hg, rfl⟩
      · exact Or.inr ⟨⟨t, hi, ht ▸ List.mem_cons_of_mem f hg⟩, fun _ => hg⟩
    · cases hu
  · next hij => exact Or.inr ⟨⟨u, hu, hg⟩, fun hji => absurd hji.symm hij⟩

theorem State.at_frame_new (hi : s.threads[i]? = some t) (hg : g ∈ fs) :
    State.At ⟨x, s.threads.set i ⟨fs ++ rest, v⟩⟩ i g := by
  obtain ⟨hlt, -⟩ := List.getElem?_eq_some_iff.mp hi
  exact ⟨⟨fs ++ rest, v⟩, by simp [hlt], List.mem_append_left rest hg⟩

/-- A function that was on the stacks before a step is still there, unless it took the step. -/
theorem State.at_frame_old (hi : s.threads[i]? = some t) (ht : t.frames = f :: rest) (h : s.At j g)
    (hne : j = i → g ≠ f) : State.At ⟨x, s.threads.set i ⟨fs ++ rest, v⟩⟩ j g := by
  obtain ⟨u, hu, hg⟩ := h
  by_cases hij : j = i
  · subst hij
    cases hi.symm.trans hu
    rw [ht] at hg
    rcases List.mem_cons.mp hg with rfl | hg
    · exact absurd rfl (hne rfl)
    · obtain ⟨hlt, -⟩ := List.getElem?_eq_some_iff.mp hi
      exact ⟨⟨fs ++ rest, v⟩, by simp [hlt], List.mem_append_right fs hg⟩
  · exact ⟨u, by simpa [List.getElem?_set, Ne.symm hij] using hu, hg⟩

theorem State.at_cases (hi : s.threads[i]? = some t) (ht : t.frames = f :: rest) (h : s.At j g) :
    g = f ∨ (j = i → g ∈ rest) := by
  obtain ⟨u, hu, hg⟩ := h
  by_cases hij : j = i
  · subst hij
    cases hi.symm.trans hu
    rw [ht] at hg
    exact (List.mem_cons.mp hg).imp id fun hg _ => hg
  · exact Or.inr fun hji => absurd hji hij

theorem State.at_head (hi : s.threads[i]? = some t) (ht : t.frames = f :: rest) : s.At i f :=
  ⟨t, hi, ht ▸ List.mem_cons_self⟩

theorem State.add_le_count {w : Frame R → Nat} (hi : s.threads[i]? = some t) (ht : t.frames = f :: rest)
    (h : s.At j g) (hrest : j = i → g ∈ rest) : w f + w g ≤ s.count w := by
  obtain ⟨u, hu, hg⟩ := h
  by_cases hij : j = i
  · have hle := Config.le_weight (f := Thread.sum w) (List.mem_of_getElem? hi)
    have hsingle := List.single_le_sum (fun _ _ => Nat.zero_le _) _ (List.mem_map_of_mem (f := w) (hrest hij))
    simp only [Thread.sum, ht, List.map_cons, List.sum_cons] at hle
    exact Nat.le_trans (Nat.add_le_add_left hsingle _) hle
  · have hle := Config.add_le_weight (f := Thread.sum w) hi hu (Ne.symm hij)
    have hf := Thread.le_sum (w := w) (ht ▸ List.mem_cons_self : f ∈ t.frames)
    have hg := Thread.le_sum (w := w) hg
    exact Nat.le_trans (Nat.add_le_add hf hg) hle

theorem State.at_caught (h : State.At ⟨x, s.threads.set i ⟨[], v⟩⟩ j g) : s.At j g := by
  obtain ⟨u, hu, hg⟩ := h
  simp only [List.getElem?_set] at hu
  split at hu
  · split at hu
    · cases hu
      cases hg
    · cases hu
  · exact ⟨u, hu, hg⟩

theorem State.at_enter (h : State.At ⟨s.shared, s.threads ++ [t]⟩ j g) : s.At j g ∨ g ∈ t.frames := by
  obtain ⟨u, hu, hg⟩ := h
  simp only [List.getElem?_append] at hu
  split at hu
  · exact Or.inl ⟨u, hu, hg⟩
  · cases List.mem_singleton.mp (List.mem_of_getElem? hu)
    exact Or.inr hg

theorem State.at_enter_old (h : s.At j g) : State.At ⟨s.shared, s.threads ++ [t]⟩ j g := by
  obtain ⟨u, hu, hg⟩ := h
  obtain ⟨hlt, -⟩ := List.getElem?_eq_some_iff.mp hu
  exact ⟨u, by rw [List.getElem?_append_left hlt, hu], hg⟩

theorem eq_of_mem_start {closed : Bool} {readers writers : Nat} (h : t ∈ (start R closed readers writers).threads) :
    ∃ d, t = ⟨[.worker d .running], false⟩ := by
  rcases List.mem_append.mp h with h | h
  · exact ⟨.read, List.eq_of_mem_replicate h⟩
  · exact ⟨.write, List.eq_of_mem_replicate h⟩

/-- At the start the workers are on the stacks. -/
theorem State.at_start {closed : Bool} {readers writers : Nat} (h : (start R closed readers writers).At j g) :
    ∃ d, g = .worker d .running := by
  obtain ⟨t, ht, hg⟩ := h
  obtain ⟨d, rfl⟩ := eq_of_mem_start (List.mem_of_getElem? ht)
  exact ⟨d, List.mem_singleton.mp hg⟩

end At

/-! ### Invariants -/

/-- A property that holds at the start, and is kept by every step and by every call, holds in every state
    that is reached. -/
theorem reach_invariant {rule : Rule (Shared R) (Thread R) (Act R) Call} {s₀ : State R} {P : State R → Prop}
    (start : P s₀)
    (frame : ∀ {s : State R} {i : Nat} {t : Thread R} {f : Frame R} {rest fs : List (Frame R)} {a : Act R} {v : Bool},
      Reach (manager R) rule s₀ s → P s → s.threads[i]? = some t → t.frames = f :: rest →
      FrameStep s.shared t.result f a fs → rule.step s t a → P ⟨a.apply s.shared, s.threads.set i ⟨fs ++ rest, v⟩⟩)
    (crash : ∀ {s : State R}, P s → P ⟨Act.terminate.apply s.shared, s.threads⟩)
    (caught : ∀ {s : State R} {i : Nat} {t : Thread R} {c : ConnId} {v : Bool},
      Reach (manager R) rule s₀ s → P s → s.threads[i]? = some t →
      t.frames = [.addCache c .getValue, .foreign] → P ⟨s.shared, s.threads.set i ⟨[], v⟩⟩)
    (enter : ∀ {s : State R} {k : Call} {t : Thread R}, P s → k.enter R = some t → rule.call k →
      P ⟨s.shared, s.threads ++ [t]⟩)
    {s : State R} (h : Reach (manager R) rule s₀ s) : P s := by
  induction h with
  | start => exact start
  | run hr hh hi hs hok ih =>
    cases Thread.step_cases hs with
    | frame ht hf => exact frame hr ih hi ht hf hok
    | crash =>
      obtain ⟨hlt, rfl⟩ := List.getElem?_eq_some_iff.mp hi
      rw [List.set_getElem_self hlt]
      exact crash ih
    | caught ht => exact caught hr ih hi ht
  | enter hr hk hok ih => exact enter ih hk hok

/-- Functions on the stacks that stand for the difference of two quantities of the shared state: it is enough
    that a step keeps the balance for what its function carries. -/
theorem count_balance {rule : Rule (Shared R) (Thread R) (Act R) Call} {closed : Bool} {readers writers : Nat}
    {w : Frame R → Nat} {l r : Shared R → Nat} (hw : Inner w) (start : ∀ closed, l { closed } = r { closed })
    (frame : ∀ {s : Shared R} {result : Bool} {f : Frame R} {a : Act R} {fs : List (Frame R)},
      FrameStep s result f a fs → l s + w f ≤ r s → l (a.apply s) + (fs.map w).sum + r s = l s + w f + r (a.apply s))
    (crash : ∀ s, l (Act.terminate.apply s) = l s ∧ r (Act.terminate.apply s) = r s)
    {s : State R} (h : Reach (manager R) rule (SimpleHttp.start R closed readers writers) s) :
    l s.shared + s.count w = r s.shared := by
  refine reach_invariant (P := fun s => l s.shared + s.count w = r s.shared) ?_ ?_ ?_ ?_ ?_ h
  · rw [hw.count_start closed readers writers]
    exact start closed
  · intro s i t f rest fs a v hr ih hi ht hf hok
    have hle := State.le_count (w := w) (List.mem_of_getElem? hi) (ht ▸ List.mem_cons_self)
    have hcount := State.count_frame w (a.apply s.shared) fs v hi ht
    have hstep := frame hf (by omega)
    show l (a.apply s.shared) + State.count _ _ = r (a.apply s.shared)
    omega
  · intro s ih
    obtain ⟨hl, hr⟩ := crash s.shared
    show l (Act.terminate.apply s.shared) + s.count w = r (Act.terminate.apply s.shared)
    rw [hl, hr, ih]
  · intro s i t c v _ ih hi ht
    rw [hw.count_caught hi ht]
    exact ih
  · intro s k t ih hk hok
    rw [hw.count_enter s hk]
    exact ih

end SimpleHttp
