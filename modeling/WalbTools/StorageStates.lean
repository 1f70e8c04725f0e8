import WalbTools.Transactions

namespace WalbTools.StorageStates

open Transactions StopCommands

inductive State where
  | clear | syncReady | stopped | target | standby
  | initVol | clearVol | startStandby | stopStandby | fullSync | hashSync | startTarget | stopTarget | reset
  deriving DecidableEq

inductive Action where
  | wlogSend | wlogRemove
  deriving DecidableEq

open State

def sSteadyStates : List State := [clear, syncReady, stopped, target, standby]

def statePairTbl : List (State × State) :=
  [(clear, initVol), (initVol, syncReady), (syncReady, clearVol), (clearVol, clear),
    (syncReady, startStandby), (startStandby, standby), (standby, stopStandby), (stopStandby, syncReady),
    (syncReady, fullSync), (fullSync, stopped), (syncReady, hashSync), (hashSync, stopped),
    (stopped, reset), (reset, syncReady),
    (stopped, startTarget), (startTarget, target), (target, stopTarget), (stopTarget, stopped)]

def allActionVec : List Action := [.wlogSend, .wlogRemove]

def sAcceptForStop : List State := [target, standby]

def sAcceptForWlogAction : List State := [target, fullSync, hashSync, standby]

abbrev Handler := List (List (Part State Action))

/-- `StorageVolInfo::init` writes the done record and the uuid after the state. -/
def c2sInitVolServer : Handler :=
  [[.transaction (some clear) initVol], [.write .makeDir], [.write (.setState syncReady)],
    [.commit .keep syncReady]]

def c2sClearVolServer : Handler :=
  [[.transaction (some syncReady) clearVol], [.write .removeState], [.commit .rmdir clear]]

/-- An overflow stops the start of a target; a standby starts with `resetWlog`. -/
def c2sStartServer (isTarget isOverflow : Bool) : Handler :=
  if isTarget then
    if isOverflow then [[.verifyNotStopping]]
    else [[.verifyNotStopping, .transaction (some stopped) startTarget, .verifyDisk stopped,
      .commit (.setState target) target]]
  else
    [[.verifyNotStopping, .transaction (some syncReady) startStandby, .verifyDisk syncReady] ++
      (if isOverflow then [.write (.setState syncReady)] else []) ++
      [.commit (.setState standby) standby]]

/-- `isTarget` is the row of `stateTbl`, the state that is read under the lock. -/
def c2sStopServer (isForce isTarget : Bool) : Handler :=
  let src := if isTarget then target else standby
  let pass := if isTarget then stopTarget else stopStandby
  let dst := if isTarget then stopped else syncReady
  [[.stopper, .changeFromNotStopping (if isForce then .forceStopping else .stopping)],
    [.waitUntil sSteadyStates allActionVec, .verifyStateIn sAcceptForStop, .verifyStateIn [src],
    .transaction (some src) pass],
    [.verifyDisk src], [.commit (.setState dst) dst]]

/-- What a worker finds: a log device that overflowed, a standby, or a volume whose log
is sent. -/
inductive Work where
  | overflow | remove | send

def storageWorker (work : Work) : Handler :=
  let locked : List (Part State Action) :=
    [.verifyNotStopping, .verifyStateIn sAcceptForWlogAction, .verifyActionNotRunning allActionVec]
  match work with
  | .overflow =>
      [locked ++ [.verifyStateIn [target], .transaction (some target) stopTarget],
        [.commit (.setState stopped) stopped]]
  | .remove => [locked ++ [.verifyStateIn [standby], .actionCounter .wlogRemove]]
  | .send =>
      [locked ++ [.verifyStateIn [target, fullSync, hashSync], .actionCounter .wlogSend],
        [.closeAction]]

def c2sResetVolServer : Handler :=
  [[.verifyNotStopping, .transaction (some stopped) reset, .commit (.setState syncReady) syncReady]]

def backupClient (isFull : Bool) : Handler :=
  [[.verifyNotStopping, .transaction (some syncReady) (if isFull then fullSync else hashSync)],
    [.write (.setState syncReady)],
    [.commit .keep stopped, .transaction (some stopped) startTarget, .commit (.setState target) target]]

inductive IsHandler : Handler → Prop
  | initVol : IsHandler c2sInitVolServer
  | clearVol : IsHandler c2sClearVolServer
  | start (isTarget isOverflow : Bool) : IsHandler (c2sStartServer isTarget isOverflow)
  | stop (isForce isTarget : Bool) : IsHandler (c2sStopServer isForce isTarget)
  | worker (work : Work) : IsHandler (storageWorker work)
  | resetVol : IsHandler c2sResetVolServer
  | backup (isFull : Bool) : IsHandler (backupClient isFull)

/-- No directory, or what `setState` can have left in it. -/
def storedStates : List (VolDir State) :=
  [.missing, .withState syncReady, .withState stopped, .withState target, .withState standby]

abbrev StorageVolState := VolState State Action

abbrev Reachable (s : StorageVolState) : Prop :=
  Transactions.Reachable statePairTbl clear storedStates {h | IsHandler h} s

/-- Steady states in memory and what they may stand over: their own state file, or what an
initialisation, a clearing or a backup left that could not go on. -/
inductive Agrees : State → VolDir State → Prop
  | clear : Agrees clear .missing
  | same {st : State} (h : st = syncReady ∨ st = stopped ∨ st = target ∨ st = standby) : Agrees st
      (.withState st)
  | initialised {dir : VolDir State} (h : dir = .withoutState ∨ dir = .withState syncReady) : Agrees
      clear dir
  | cleared : Agrees syncReady .withoutState
  | backup : Agrees stopped (.withState syncReady)

def allowed (st : State) : List Action :=
  if st = standby then [.wlogSend, .wlogRemove] else if st = stopTarget ∨ st = stopStandby then []
    else [.wlogSend]

end WalbTools.StorageStates
