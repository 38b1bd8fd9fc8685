import BlazeList.Lib.Run

/-!
# The connection

A loop makes one attempt to connect after the other. It gives an attempt a limited time to connect, then waits
for the connection to end, and pauses before the next attempt. An attempt that it has given up is not cancelled.
Whether an attempt has connected it reads off the connection status, and to that every attempt and every sync
writes.
-/

namespace BlazeList

inductive ConnectionStatus where
  | disconnected
  | connecting
  | connected
  | syncing
  deriving DecidableEq

/-- How far an attempt has got: it connects, syncs, and syncs again when it is notified. -/
inductive Attempt where
  | connecting
  | syncing
  | subscribed
  | resyncing
  | finished
  deriving DecidableEq

/-- What the loop sleeps for. The first phase has a number of checks left, the last a number of seconds. -/
inductive LoopPhase where
  | establishing (checks : Nat)
  | established
  | countingDown (remaining : Nat)
  deriving DecidableEq

/-- The attempts that the loop has given up or seen the end of, in their order, and the one it has made last.
The last field is a note of an observer: the milliseconds the loop has slept since it started the attempt, or
since it found a connection ended. -/
structure Connection where
  status : ConnectionStatus
  reconnectCountdown : Nat
  reconnectNow : Bool
  client : Option Nat
  earlier : List Attempt
  current : Attempt
  syncs : Nat
  phase : LoopPhase
  waited : Nat
  deriving DecidableEq

def connectTimeoutSecs : Nat := 15

def retrySecs : Nat := 5

def Connection.new : Connection :=
  ⟨.connecting, 0, false, none, [], .connecting, 0, .establishing (connectTimeoutSecs * 10), 0⟩

namespace Connection

def number (connection : Connection) : Nat := connection.earlier.length

def attempt? (connection : Connection) (number : Nat) : Option Attempt :=
  if number = connection.number then some connection.current else connection.earlier[number]?

def setAttempt (connection : Connection) (number : Nat) (attempt : Attempt) : Connection :=
  if number = connection.number then { connection with current := attempt }
  else { connection with earlier := connection.earlier.set number attempt }

def isUp (connection : Connection) : Bool :=
  match connection.status with
  | .connected | .syncing => true
  | .disconnected | .connecting => false

/-! ### The loop -/

def endAttempt (connection : Connection) (slept : Nat) : Connection :=
  { connection with
    status := .disconnected
    reconnectCountdown := retrySecs
    phase := .countingDown retrySecs
    waited := connection.waited + slept }

def startAttempt (connection : Connection) : Connection :=
  { connection with
    status := .connecting
    reconnectCountdown := 0
    reconnectNow := false
    client := none
    earlier := connection.earlier ++ [connection.current]
    current := .connecting
    phase := .establishing (connectTimeoutSecs * 10)
    waited := 0 }

/-- The loop wakes up, and goes on until it sleeps again. -/
def wake (connection : Connection) : Connection :=
  match connection.phase with
  | .establishing checks =>
      if connection.current = .finished then connection.endAttempt 100
      else if connection.reconnectNow then { connection with reconnectNow := false }.endAttempt 100
      else if connection.isUp then { connection with phase := .established, waited := 0 }
      else if checks ≤ 1 then connection.endAttempt 100
      else { connection with phase := .establishing (checks - 1), waited := connection.waited + 100 }
  | .established =>
      if connection.reconnectNow || connection.current = .finished then
        { connection with reconnectNow := false }.endAttempt 0
      else connection
  | .countingDown remaining =>
      if connection.reconnectNow || remaining ≤ 1 then connection.startAttempt
      else
        { connection with
          reconnectCountdown := remaining - 1
          phase := .countingDown (remaining - 1)
          waited := connection.waited + 1000 }

/-! ### The tasks -/

def succeed (connection : Connection) (number : Nat) : Connection :=
  match connection.attempt? number with
  | some .connecting => { connection.setAttempt number .syncing with status := .syncing }
  | some .syncing =>
      { connection.setAttempt number .subscribed with status := .connected, client := some number }
  | some .resyncing => { connection.setAttempt number .subscribed with status := .connected }
  | some .subscribed | some .finished | none => connection

/-- An attempt that fails leaves the status as it is. -/
def fail (connection : Connection) (number : Nat) : Connection :=
  match connection.attempt? number with
  | some _ => connection.setAttempt number .finished
  | none => connection

def notify (connection : Connection) (number : Nat) : Connection :=
  match connection.attempt? number with
  | some .subscribed => { connection.setAttempt number .resyncing with status := .syncing }
  | _ => connection

def mismatch (connection : Connection) (number : Nat) : Connection :=
  match connection.attempt? number with
  | some .syncing | some .resyncing => { connection with status := .syncing }
  | _ => connection

def startSync (connection : Connection) : Connection :=
  if connection.status = .connected && connection.client.isSome then
    { connection with status := .syncing, syncs := connection.syncs + 1 }
  else connection

def syncMismatch (connection : Connection) : Connection :=
  if 0 < connection.syncs then { connection with status := .syncing } else connection

def endSync (connection : Connection) : Connection :=
  if 0 < connection.syncs then { connection with status := .connected, syncs := connection.syncs - 1 }
  else connection

def returned (connection : Connection) : Connection :=
  match connection.status with
  | .disconnected | .connecting => { connection with reconnectNow := true }
  | .connected | .syncing => connection

def click (connection : Connection) : Connection :=
  match connection.status with
  | .connected => connection.startSync
  | .disconnected => { connection with reconnectNow := true }
  | .connecting | .syncing => connection

end Connection

inductive ConnectionStep where
  | wake
  | succeed (number : Nat)
  | fail (number : Nat)
  | notify (number : Nat)
  | mismatch (number : Nat)
  | startSync
  | syncMismatch
  | endSync
  | returned
  | click
  deriving DecidableEq

def connectionStep (connection : Connection) : ConnectionStep → Connection
  | .wake => connection.wake
  | .succeed number => connection.succeed number
  | .fail number => connection.fail number
  | .notify number => connection.notify number
  | .mismatch number => connection.mismatch number
  | .startSync => connection.startSync
  | .syncMismatch => connection.syncMismatch
  | .endSync => connection.endSync
  | .returned => connection.returned
  | .click => connection.click

/-! ### Pauses -/

section Steps

variable {connection : Connection} {action : ConnectionStep}

theorem phase_setAttempt (number : Nat) (attempt : Attempt) :
    (connection.setAttempt number attempt).phase = connection.phase := by
  unfold Connection.setAttempt
  split <;> rfl

theorem waited_setAttempt (number : Nat) (attempt : Attempt) :
    (connection.setAttempt number attempt).waited = connection.waited := by
  unfold Connection.setAttempt
  split <;> rfl

theorem current_setAttempt_ne {number : Nat} {attempt : Attempt} (hattempt : attempt ≠ .connecting)
    (hcurrent : connection.current ≠ .connecting) :
    (connection.setAttempt number attempt).current ≠ .connecting := by
  unfold Connection.setAttempt
  split
  · exact hattempt
  · exact hcurrent

structure LeavesLoop (before after : Connection) : Prop where
  phase : after.phase = before.phase
  waited : after.waited = before.waited
  current : before.current ≠ .connecting → after.current ≠ .connecting

theorem LeavesLoop.refl (connection : Connection) : LeavesLoop connection connection := ⟨rfl, rfl, id⟩

theorem leavesLoop_setAttempt (connection : Connection) (number : Nat) (attempt : Attempt)
    (hattempt : attempt ≠ .connecting) :
    LeavesLoop connection (connection.setAttempt number attempt) :=
  ⟨phase_setAttempt number attempt, waited_setAttempt number attempt, current_setAttempt_ne hattempt⟩

theorem leavesLoop_startSync (connection : Connection) : LeavesLoop connection connection.startSync := by
  unfold Connection.startSync
  split
  · exact ⟨rfl, rfl, id⟩
  · exact .refl connection

/-- Only the loop moves on, and only it starts an attempt. -/
theorem leavesLoop_step (hwake : action ≠ .wake) : LeavesLoop connection (connectionStep connection action) := by
  cases action with
  | wake => exact absurd rfl hwake
  | succeed number =>
      dsimp only [connectionStep, Connection.succeed]
      split
      · have h := leavesLoop_setAttempt connection number .syncing (by decide)
        exact ⟨h.phase, h.waited, h.current⟩
      · have h := leavesLoop_setAttempt connection number .subscribed (by decide)
        exact ⟨h.phase, h.waited, h.current⟩
      · have h := leavesLoop_setAttempt connection number .subscribed (by decide)
        exact ⟨h.phase, h.waited, h.current⟩
      all_goals exact .refl connection
  | fail number =>
      dsimp only [connectionStep, Connection.fail]
      split
      · exact leavesLoop_setAttempt connection number .finished (by decide)
      · exact .refl connection
  | notify number =>
      dsimp only [connectionStep, Connection.notify]
      split
      · have h := leavesLoop_setAttempt connection number .resyncing (by decide)
        exact ⟨h.phase, h.waited, h.current⟩
      · exact .refl connection
  | mismatch number =>
      dsimp only [connectionStep, Connection.mismatch]
      split
      · exact ⟨rfl, rfl, id⟩
      · exact ⟨rfl, rfl, id⟩
      · exact .refl connection
  | startSync => exact leavesLoop_startSync connection
  | syncMismatch =>
      dsimp only [connectionStep, Connection.syncMismatch]
      split
      · exact ⟨rfl, rfl, id⟩
      · exact .refl connection
  | endSync =>
      dsimp only [connectionStep, Connection.endSync]
      split
      · exact ⟨rfl, rfl, id⟩
      · exact .refl connection
  | returned =>
      dsimp only [connectionStep, Connection.returned]
      split
      · exact ⟨rfl, rfl, id⟩
      · exact ⟨rfl, rfl, id⟩
      all_goals exact .refl connection
  | click =>
      dsimp only [connectionStep, Connection.click]
      split
      · exact leavesLoop_startSync connection
      · exact ⟨rfl, rfl, id⟩
      all_goals exact .refl connection

def Paced (connection : Connection) : Prop :=
  match connection.phase with
  | .establishing checks => 1 ≤ checks ∧ connection.waited + checks * 100 ≤ connectTimeoutSecs * 1000
  | .established => connection.waited = 0
  | .countingDown remaining =>
      1 ≤ remaining ∧ connection.waited + remaining * 1000 ≤ (connectTimeoutSecs + retrySecs) * 1000

theorem paced_endAttempt (connection : Connection) {slept : Nat}
    (hslept : connection.waited + slept ≤ connectTimeoutSecs * 1000) :
    Paced (connection.endAttempt slept) := by
  unfold Paced Connection.endAttempt
  dsimp only
  unfold connectTimeoutSecs retrySecs at *
  omega

theorem paced_startAttempt (connection : Connection) : Paced connection.startAttempt := by
  unfold Paced Connection.startAttempt
  dsimp only
  unfold connectTimeoutSecs
  omega

theorem paced_new : Paced .new := ⟨by decide, by decide⟩

theorem Paced.wake (h : Paced connection) : Paced connection.wake := by
  unfold Paced at h
  unfold Connection.wake
  cases hphase : connection.phase with
  | establishing checks =>
      rw [hphase] at h
      dsimp only at h ⊢
      split_ifs with hfinished hrequested hup hlast
      · exact paced_endAttempt connection (by omega)
      · exact paced_endAttempt { connection with reconnectNow := false } (by dsimp only; omega)
      · exact rfl
      · exact paced_endAttempt connection (by omega)
      · unfold Paced
        dsimp only
        omega
  | established =>
      rw [hphase] at h
      dsimp only at h ⊢
      split_ifs
      · exact paced_endAttempt { connection with reconnectNow := false } (by dsimp only; omega)
      · unfold Paced
        rwa [hphase]
  | countingDown remaining =>
      rw [hphase] at h
      dsimp only at h ⊢
      split_ifs with hstart
      · exact paced_startAttempt connection
      · have hmore : ¬ remaining ≤ 1 := fun hle => hstart (by rw [decide_eq_true hle, Bool.or_true])
        unfold Paced
        dsimp only
        omega

theorem Paced.step (h : Paced connection) (action : ConnectionStep) : Paced (connectionStep connection action) := by
  by_cases hwake : action = .wake
  · subst hwake
    exact h.wake
  · have hleaves : LeavesLoop connection (connectionStep connection action) := leavesLoop_step hwake
    unfold Paced at h ⊢
    rwa [hleaves.phase, hleaves.waited]

/-! ### Waiting without a limit -/

def Connection.isEstablishing (connection : Connection) : Bool :=
  match connection.phase with
  | .establishing _ => true
  | .established | .countingDown _ => false

/-- While the loop waits for its attempt to connect, another task makes the status look as if it had. -/
def Hijacked (connection : Connection) (action : ConnectionStep) : Prop :=
  connection.isEstablishing = true ∧ connection.current = .connecting ∧
    (connectionStep connection action).current = .connecting ∧ (connectionStep connection action).isUp = true

instance (connection : Connection) (action : ConnectionStep) : Decidable (Hijacked connection action) :=
  inferInstanceAs (Decidable (_ ∧ _))

/-- An attempt that has not connected does not look as if it had, and is not waited for without a limit. -/
structure Honest (connection : Connection) : Prop where
  down : connection.current = .connecting → connection.isEstablishing = true → connection.isUp = false
  limited : connection.phase = .established → connection.current ≠ .connecting

theorem honest_new : Honest .new where
  down _ _ := rfl
  limited hestablished := by cases hestablished

theorem honest_of_countingDown {remaining : Nat} (hphase : connection.phase = .countingDown remaining) :
    Honest connection where
  down _ hestablishing := by
    rw [Connection.isEstablishing, hphase] at hestablishing
    cases hestablishing
  limited hestablished := by cases hphase.symm.trans hestablished

theorem Honest.wake (h : Honest connection) : Honest connection.wake := by
  unfold Connection.wake
  cases hphase : connection.phase with
  | establishing checks =>
      have hestablishing : connection.isEstablishing = true := by rw [Connection.isEstablishing, hphase]
      dsimp only
      split_ifs with hfinished hrequested hup hlast
      · exact honest_of_countingDown rfl
      · exact honest_of_countingDown rfl
      · constructor
        · intro _ hestablishing
          cases hestablishing
        · intro _ hconnecting
          exact Bool.false_ne_true ((h.down hconnecting hestablishing).symm.trans hup)
      · exact honest_of_countingDown rfl
      · constructor
        · intro hconnecting _
          exact h.down hconnecting hestablishing
        · intro hestablished
          cases hestablished
  | established =>
      dsimp only
      split_ifs
      · exact honest_of_countingDown rfl
      · exact h
  | countingDown remaining =>
      dsimp only
      split_ifs
      · constructor
        · intro _ _
          rfl
        · intro hestablished
          cases hestablished
      · exact honest_of_countingDown rfl

theorem Honest.step (h : Honest connection) (hown : ¬ Hijacked connection action) :
    Honest (connectionStep connection action) := by
  by_cases hwake : action = .wake
  · subst hwake
    exact h.wake
  · have hleaves : LeavesLoop connection (connectionStep connection action) := leavesLoop_step hwake
    constructor
    · intro hconnecting hestablishing
      rw [Connection.isEstablishing, hleaves.phase] at hestablishing
      by_cases hbefore : connection.current = .connecting
      · exact Bool.eq_false_iff.mpr fun hup => hown ⟨hestablishing, hbefore, hconnecting, hup⟩
      · exact absurd hconnecting (hleaves.current hbefore)
    · intro hestablished
      rw [hleaves.phase] at hestablished
      exact hleaves.current (h.limited hestablished)

/-- The loop never sleeps for 20 seconds without making an attempt or having a connection, and as long as no
other task sets the status while an attempt connects, it waits without a limit only for attempts that have
connected. -/
theorem connectionLoop_run (actions : List ConnectionStep) :
    let connection := Run.after connectionStep .new actions
    connection.waited < (connectTimeoutSecs + retrySecs) * 1000 ∧
      (Run.Meets connectionStep (fun connection action => ¬ Hijacked connection action) .new actions →
        connection.phase = .established → connection.current ≠ .connecting) := by
  intro connection
  constructor
  · have hpaced : Paced connection :=
      Run.invariant Paced paced_new (fun _ action h => h.step action) actions
    unfold Paced at hpaced
    unfold connectTimeoutSecs retrySecs at *
    split at hpaced <;> omega
  · intro hmeets
    have hhonest : Honest connection := hmeets.invariant Honest honest_new fun _ _ h hown => h.step hown
    exact hhonest.limited

/-- The loop waits without a limit for an attempt that has not connected, and nothing else is under way. -/
structure Stuck (connection : Connection) : Prop where
  phase : connection.phase = .established
  current : connection.current = .connecting
  status : connection.status = .connected
  client : connection.client = none
  syncs : connection.syncs = 0
  reconnectNow : connection.reconnectNow = false
  earlier : ∀ attempt ∈ connection.earlier, attempt = .finished

theorem Stuck.attempt?_eq (h : Stuck connection) (number : Nat) :
    connection.attempt? number = some .connecting ∧ number = connection.number ∨
      number ≠ connection.number ∧ connection.attempt? number = connection.earlier[number]? ∧
        ∀ attempt ∈ connection.earlier[number]?, attempt = .finished := by
  unfold Connection.attempt?
  split_ifs with hnumber
  · exact .inl ⟨by rw [h.current], hnumber⟩
  · exact .inr ⟨hnumber, rfl, fun attempt hattempt => h.earlier attempt (List.mem_of_getElem? hattempt)⟩

theorem Stuck.startSync (h : Stuck connection) : connection.startSync = connection := by
  unfold Connection.startSync
  rw [if_neg (by rw [h.client]; simp)]

/-- Neither the page's return nor a click makes a difference. -/
theorem Stuck.step (h : Stuck connection) (hsucceed : action ≠ .succeed connection.number)
    (hfail : action ≠ .fail connection.number) : connectionStep connection action = connection := by
  cases action with
  | wake =>
      dsimp only [connectionStep, Connection.wake]
      rw [h.phase]
      dsimp only
      rw [if_neg (by rw [h.reconnectNow, h.current]; decide)]
  | succeed number =>
      dsimp only [connectionStep, Connection.succeed]
      rcases h.attempt?_eq number with ⟨-, rfl⟩ | ⟨-, hattempt, hfinished⟩
      · exact absurd rfl hsucceed
      · rw [hattempt]
        cases hother : connection.earlier[number]? with
        | none => rfl
        | some attempt =>
            obtain rfl := hfinished attempt hother
            rfl
  | fail number =>
      dsimp only [connectionStep, Connection.fail]
      rcases h.attempt?_eq number with ⟨-, rfl⟩ | ⟨hnumber, hattempt, hfinished⟩
      · exact absurd rfl hfail
      · rw [hattempt]
        cases hother : connection.earlier[number]? with
        | none => rfl
        | some attempt =>
            obtain rfl := hfinished attempt hother
            dsimp only
            obtain ⟨hlength, hget⟩ := List.getElem?_eq_some_iff.mp hother
            have hset : connection.earlier.set number .finished = connection.earlier := by
              rw [← hget, List.set_getElem_self]
            rw [Connection.setAttempt, if_neg hnumber, hset]
  | notify number =>
      dsimp only [connectionStep, Connection.notify]
      rcases h.attempt?_eq number with ⟨hattempt, -⟩ | ⟨-, hattempt, hfinished⟩
      · rw [hattempt]
      · rw [hattempt]
        cases hother : connection.earlier[number]? with
        | none => rfl
        | some attempt =>
            obtain rfl := hfinished attempt hother
            rfl
  | mismatch number =>
      dsimp only [connectionStep, Connection.mismatch]
      rcases h.attempt?_eq number with ⟨hattempt, -⟩ | ⟨-, hattempt, hfinished⟩
      · rw [hattempt]
      · rw [hattempt]
        cases hother : connection.earlier[number]? with
        | none => rfl
        | some attempt =>
            obtain rfl := hfinished attempt hother
            rfl
  | startSync => exact h.startSync
  | syncMismatch =>
      dsimp only [connectionStep, Connection.syncMismatch]
      rw [if_neg (by rw [h.syncs]; decide)]
  | endSync =>
      dsimp only [connectionStep, Connection.endSync]
      rw [if_neg (by rw [h.syncs]; decide)]
  | returned =>
      dsimp only [connectionStep, Connection.returned]
      rw [h.status]
  | click =>
      dsimp only [connectionStep, Connection.click]
      rw [h.status]
      exact h.startSync

/-- Once the loop is stuck, nothing frees it but the attempt it waits for. -/
theorem stuck_run (hstuck : Stuck connection) (actions : List ConnectionStep)
    (hothers : ∀ action ∈ actions, action ≠ .succeed connection.number ∧ action ≠ .fail connection.number) :
    Run.after connectionStep connection actions = connection := by
  have hmeets : Run.Meets connectionStep (fun _ action => action ≠ .succeed connection.number ∧
      action ≠ .fail connection.number) connection actions := Run.meets_of_forall fun _ action => hothers action
  apply hmeets.invariant (fun later => later = connection) rfl
  rintro _ action rfl haction
  exact hstuck.step haction.1 haction.2

end Steps

def promptActions : List ConnectionStep := [.succeed 0, .wake, .succeed 0, .wake, .returned, .wake]

theorem connectionLoop_run_prompt :
    let connection := Run.after connectionStep .new promptActions
    connection.phase = .established ∧ connection.waited < (connectTimeoutSecs + retrySecs) * 1000 ∧
      connection.current ≠ .connecting := by
  intro connection
  have hphase : connection.phase = .established := by decide
  have hrun := connectionLoop_run promptActions
  have hmeets : Run.Meets connectionStep (fun connection action => ¬ Hijacked connection action) .new
      promptActions := by decide
  exact ⟨hphase, hrun.1, hrun.2 hmeets hphase⟩

def wedgingActions : List ConnectionStep :=
  [.succeed 0, .wake, .succeed 0, .startSync, .fail 0, .wake, .returned, .wake, .endSync, .wake]

theorem stuck_run_wedged :
    let connection := Run.after connectionStep .new wedgingActions
    Stuck connection ∧
      Run.after connectionStep connection [.returned, .click, .wake, .startSync, .wake] = connection := by
  intro connection
  have hstuck : Stuck connection := ⟨by decide, by decide, by decide, by decide, by decide, by decide, by decide⟩
  exact ⟨hstuck, stuck_run hstuck _ (by decide)⟩

end BlazeList
