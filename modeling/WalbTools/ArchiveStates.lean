import WalbTools.Transactions

namespace WalbTools.ArchiveStates

open Transactions StopCommands

inductive State where
  | clear | syncReady | archived | stopped
  | initVol | clearVol | resetVol | fullSync | hashSync | resync | wdiffRecv | replSync | stop | start
  deriving DecidableEq

inductive Action where
  | merge | apply | restore | replSync | resize
  deriving DecidableEq

open State

def aSteadyStates : List State := [clear, syncReady, archived, stopped]

def statePairTbl : List (State × State) :=
  [(clear, initVol), (initVol, syncReady), (syncReady, clearVol), (clearVol, clear),
    (syncReady, fullSync), (fullSync, archived), (syncReady, resync), (resync, archived),
    (archived, hashSync), (hashSync, archived), (archived, wdiffRecv), (wdiffRecv, archived),
    (archived, replSync), (replSync, archived),
    (archived, stop), (stop, stopped),
    (stopped, clearVol), (clearVol, clear), (stopped, start), (start, archived),
    (stopped, resetVol), (syncReady, resetVol), (resetVol, syncReady)]

def allActionVec : List Action := [.merge, .apply, .restore, .replSync, .resize]

def aDenyForRestore : List Action := [.restore, .resize]

def aDenyForReplSyncClient : List Action := [.restore, .replSync, .apply, .merge, .resize]

def aDenyForApply : List Action := [.restore, .replSync, .apply, .merge, .resize]

def aDenyForMerge : List Action := [.restore, .replSync, .apply, .merge, .resize]

def aDenyForResize : List Action := [.restore, .replSync, .apply, .resize]

def aAcceptForReplicateServer : List State := [syncReady, archived]

def aActive : List State := [archived, hashSync, wdiffRecv, replSync]

def aAcceptForResize : List State := [syncReady, archived, hashSync, wdiffRecv, replSync, stopped]

abbrev Handler := List (List (Part State Action))

def c2aInitVolServer : Handler :=
  [[.verifyActionNotRunning allActionVec, .transaction (some clear) initVol], [.write .makeDir],
    [.commit (.setState syncReady) syncReady]]

def c2aClearVolServer : Handler :=
  [[.verifyActionNotRunning allActionVec, .transaction none clearVol], [.write .removeState],
    [.commit .rmdir clear]]

def c2aStartServer : Handler :=
  [[.verifyActionNotRunning allActionVec, .transaction (some stopped) start],
    [.verifyDisk stopped, .commit (.setState archived) archived]]

def c2aStopServer (isForce : Bool) : Handler :=
  [[.stopper, .changeFromNotStopping (if isForce then .forceStopping else .stopping)],
    [.waitUntil aSteadyStates allActionVec, .verifyStateIn [archived],
    .transaction (some archived) stop],
    [.verifyDisk archived, .commit (.setState stopped) stopped]]

def c2aResetVolServer : Handler :=
  [[.verifyActionNotRunning allActionVec, .transaction none resetVol], [.write .removeState],
    [.write .rmdir],
    [.write .makeDir], [.commit (.setState syncReady) syncReady]]

def backupServer (isFull : Bool) : Handler :=
  let stFrom := if isFull then syncReady else archived
  let stPass := if isFull then fullSync else hashSync
  [[.verifyNotStopping, .verifyActionNotRunning allActionVec, .verifyStateIn [stFrom],
    .transaction (some stFrom) stPass],
    [.verifyDisk stFrom], [.commit (.setState archived) archived]]

/-- What the server decides on. A resync begins in `syncReady` or in `archived`, the
state that is read under the lock. -/
inductive SyncKind where
  | fullSync
  | resync (state : State)
  | hashOrDiffSync

def runFullReplServer : List (Part State Action) :=
  [.verifyStateIn [syncReady], .transaction (some syncReady) fullSync]

def runResyncReplServer (state : State) : List (Part State Action) :=
  .verifyStateIn [state] ::
    (if state = archived then
      [.transaction (some archived) stop, .commit .keep stopped, .transaction (some stopped) resetVol,
        .commit (.setState syncReady) syncReady]
    else []) ++ [.transaction (some syncReady) resync]

/-- `runHashReplServer` or `runDiffReplServer`: in both the lock is given back for the
transfer and taken again before the commit. -/
def replSyncLoop (locked : List (Part State Action)) : Nat → Handler
  | 0 => [locked]
  | n + 1 =>
      (locked ++ [.transaction (some archived) replSync]) :: replSyncLoop [.commit .keep archived] n

def runReplSyncServer (locked : List (Part State Action)) (n : Nat) : SyncKind → Handler
  | .fullSync => (locked ++ runFullReplServer) :: replSyncLoop [.commit (.setState archived) archived] n
  | .resync state =>
      (locked ++ runResyncReplServer state) :: replSyncLoop [.commit (.setState archived) archived]
        n
  | .hashOrDiffSync => replSyncLoop (locked ++ [.verifyStateIn [archived]]) n

def firstSection : List (Part State Action) :=
  [.verifyNotStopping, .verifyActionNotRunning allActionVec, .verifyStateIn aAcceptForReplicateServer]

/-- `n` is the number of times that the client asks for a hash or diff replication. -/
def a2aReplSyncServer (kind : SyncKind) (n : Nat) : Handler := runReplSyncServer firstSection n kind

def p2aWdiffTransferServer : Handler :=
  [[.verifyNotStopping, .verifyStateIn [archived], .transaction (some archived) wdiffRecv],
    [.commit .keep archived]]

def c2aRestoreServer : Handler :=
  [[.verifyNotStopping, .verifyStateIn aActive, .verifyActionNotRunning aDenyForRestore,
    .actionCounter .restore]]

def c2aReplicateServer : Handler :=
  [[.verifyNotStopping, .verifyActionNotRunning aDenyForReplSyncClient, .verifyStateIn aActive,
    .actionCounter .replSync]]

def c2aApplyServer : Handler :=
  [[.verifyNotStopping, .verifyActionNotRunning aDenyForApply, .verifyStateIn aActive,
    .actionCounter .apply]]

def c2aMergeServer : Handler :=
  [[.verifyNotStopping, .verifyActionNotRunning aDenyForMerge, .verifyStateIn aActive,
    .actionCounter .merge]]

def c2aResizeServer : Handler :=
  [[.verifyNotStopping, .verifyActionNotRunning aDenyForResize, .verifyStateIn aAcceptForResize,
    .actionCounter .resize]]

/-- All handlers that change the state or the counters of a volume, but for `c2aSetStateServer`,
a command to debug with that sets the state whatever actions run. -/
inductive IsHandler : Handler → Prop
  | initVol : IsHandler c2aInitVolServer
  | clearVol : IsHandler c2aClearVolServer
  | start : IsHandler c2aStartServer
  | stop (isForce : Bool) : IsHandler (c2aStopServer isForce)
  | resetVol : IsHandler c2aResetVolServer
  | backup (isFull : Bool) : IsHandler (backupServer isFull)
  | replSync (kind : SyncKind) (n : Nat) : IsHandler (a2aReplSyncServer kind n)
  | wdiffTransfer : IsHandler p2aWdiffTransferServer
  | restore : IsHandler c2aRestoreServer
  | replicate : IsHandler c2aReplicateServer
  | apply : IsHandler c2aApplyServer
  | merge : IsHandler c2aMergeServer
  | resize : IsHandler c2aResizeServer

def storedStates : List (VolDir State) :=
  [.missing, .withState syncReady, .withState archived, .withState stopped]

abbrev ArchiveVolState := VolState State Action

abbrev Reachable (s : ArchiveVolState) : Prop :=
  Transactions.Reachable statePairTbl clear storedStates {h | IsHandler h} s

/-- Steady states in memory and what they may stand over: their own state file, or what an
initialisation, a clearing or reset, or a resync left that could not go on. -/
inductive Agrees : State → VolDir State → Prop
  | clear : Agrees clear .missing
  | same {st : State} (h : st = syncReady ∨ st = archived ∨ st = stopped) : Agrees st (.withState st)
  | initialised : Agrees clear .withoutState
  | cleared {st : State} {dir : VolDir State} (h : st = syncReady ∨ st = stopped)
      (hdir : dir = .missing ∨ dir = .withoutState) :
      Agrees st dir
  | resync : Agrees stopped (.withState archived)

def allowed (st : State) : List Action :=
  if st ∈ aActive then allActionVec else if st ∈ aAcceptForResize then [.resize] else []

/-- What is known during the transfer of a hash or diff replication. -/
def receiving : Known State Action :=
  ⟨true, false, some [replSync], [], [(archived, .withState archived)]⟩

def syncing (pass : State) : Known State Action :=
  ⟨true, false, some [pass], [], [(syncReady, .withState syncReady), (syncReady, .missing),
    (syncReady, .withoutState)]⟩

end WalbTools.ArchiveStates
