import Mathlib.Order.Basic
import Mathlib.Data.Int.Order.Basic

/-!
# Server-side flow control of a client (`les/flowcontrol/control.go`)

A client's buffer recharges at `MinRecharge` per millisecond up to `BufLimit`.  `UpdateParams`
applies new parameters at once if they do not lower `MinRecharge`; a decrease is scheduled
`DecParamDelay` later, so that requests the client sends before it hears of the decrease are still
served.  `update` applies the scheduled updates that are due, recharging the buffer up to each one.

A decrease requested while an earlier one is pending is meant to replace the first pending entry
it does not undercut, dropping the entries after it.  The replacement is written to the range
loop's copy `s` of the entry, so the entry keeps the parameters it had and the new request is lost:
after both delays the earlier parameters are in force (`UpdateParams_later_decrease_lost`).

The client manager's side (`corrBufValue`, the recharge queue, the total capacity and its
logarithms) is left out: of `ClientManager.updateParams` the model keeps what it does to the node,
setting `node.params` in `updateNodeRc`.  Times are `mclock.AbsTime` nanoseconds, read as integers
(the monotonic clock does not wrap); the parameters and the buffer value keep their widths.
-/

namespace Go420coin.Les

/-- `ServerParams`. -/
structure ServerParams where
  bufLimit : UInt64
  minRecharge : UInt64
  deriving DecidableEq

/-- `scheduledUpdate`. -/
structure ScheduledUpdate where
  time : Int
  params : ServerParams

/-- `ClientNode`, the fields its parameter updates read and write. -/
structure ClientNode where
  params : ServerParams
  bufValue : Int64
  lastTime : Int
  updateSchedule : List ScheduledUpdate

/-- `fcTimeConst`: a millisecond. -/
def fcTimeConst : Int := 1000000

/-- `DecParamDelay`: two seconds. -/
def decParamDelay : Int := 2 * 1000000000

namespace ClientNode

/-- `recalcBV`: the buffer recharged from `lastTime` to `now`, capped at `BufLimit`. -/
def recalcBV (node : ClientNode) (now : Int) : ClientNode :=
  let dt : UInt64 := if now < node.lastTime then 0 else (now - node.lastTime).toNat.toUInt64
  let bv := node.bufValue + (node.params.minRecharge * dt / fcTimeConst.toNat.toUInt64).toInt64
  { node with
    bufValue := if bv > node.params.bufLimit.toInt64 then node.params.bufLimit.toInt64 else bv
    lastTime := now }

/-- `updateParams`: a raised `BufLimit` raises the buffer by as much, a lowered one caps it; the
node takes the parameters (in `ClientManager.updateNodeRc`). -/
def updateParams (node : ClientNode) (params : ServerParams) (_now : Int) : ClientNode :=
  let diff := (params.bufLimit - node.params.bufLimit).toInt64
  let bv := if diff > 0 then node.bufValue + diff
    else if node.bufValue > params.bufLimit.toInt64 then params.bufLimit.toInt64
    else node.bufValue
  { node with bufValue := bv, params := params }

/-- The loop of `update`: the scheduled updates due at `now`, in order, each after recharging the
buffer up to its time. -/
def runSchedule (now : Int) : List ScheduledUpdate → ClientNode → ClientNode
  | [], node => { node with updateSchedule := [] }
  | s :: rest, node =>
    if s.time ≤ now then runSchedule now rest ((node.recalcBV s.time).updateParams s.params now)
    else { node with updateSchedule := s :: rest }

/-- `update`. -/
def update (node : ClientNode) (now : Int) : ClientNode :=
  (runSchedule now node.updateSchedule node).recalcBV now

/-- `UpdateParams`: an increase of `MinRecharge` at once, a decrease `DecParamDelay` later. -/
def UpdateParams (node : ClientNode) (params : ServerParams) (now : Int) : ClientNode :=
  let node := node.update now
  if params.minRecharge ≥ node.params.minRecharge then
    { node with updateSchedule := [] }.updateParams params now
  else
    match node.updateSchedule.findIdx? (fun s => params.minRecharge ≥ s.params.minRecharge) with
    -- `s.params = params` writes to the loop's copy: the entry keeps its parameters
    | some i => { node with updateSchedule := node.updateSchedule.take (i + 1) }
    | none => { node with updateSchedule := node.updateSchedule ++ [⟨now + decParamDelay, params⟩] }

/-! ### What each step does to the parameters and the schedule -/

variable (node : ClientNode) (now : Int)

@[simp] theorem recalcBV_params : (node.recalcBV now).params = node.params := rfl

@[simp] theorem recalcBV_updateSchedule : (node.recalcBV now).updateSchedule = node.updateSchedule := rfl

@[simp] theorem updateParams_params (p : ServerParams) : (node.updateParams p now).params = p := rfl

@[simp] theorem updateParams_updateSchedule (p : ServerParams) :
    (node.updateParams p now).updateSchedule = node.updateSchedule := rfl

theorem runSchedule_nil : runSchedule now [] node = { node with updateSchedule := [] } := rfl

theorem runSchedule_cons_of_le {s : ScheduledUpdate} (rest : List ScheduledUpdate) (h : s.time ≤ now) :
    runSchedule now (s :: rest) node = runSchedule now rest ((node.recalcBV s.time).updateParams s.params now) :=
  if_pos h

theorem runSchedule_cons_of_lt {s : ScheduledUpdate} (rest : List ScheduledUpdate) (h : now < s.time) :
    runSchedule now (s :: rest) node = { node with updateSchedule := s :: rest } :=
  if_neg (Int.not_le.mpr h)

theorem update_eq : node.update now = (runSchedule now node.updateSchedule node).recalcBV now := rfl

/-- With nothing scheduled, `update` only recharges the buffer. -/
theorem update_of_nil (h : node.updateSchedule = []) :
    (node.update now).params = node.params ∧ (node.update now).updateSchedule = [] := by
  simp [update_eq, h, runSchedule_nil]

/-- A pending update not yet due stays pending, and the parameters stay. -/
theorem update_of_pending {s : ScheduledUpdate} (h : node.updateSchedule = [s]) (hlt : now < s.time) :
    (node.update now).params = node.params ∧ (node.update now).updateSchedule = [s] := by
  simp [update_eq, h, runSchedule_cons_of_lt node now [] hlt]

/-- A single pending update that is due is in force after `update`. -/
theorem update_of_due {s : ScheduledUpdate} (h : node.updateSchedule = [s]) (hle : s.time ≤ now) :
    (node.update now).params = s.params ∧ (node.update now).updateSchedule = [] := by
  simp [update_eq, h, runSchedule_cons_of_le node now [] hle, runSchedule_nil]

/-- A decrease requested with nothing pending is scheduled `DecParamDelay` later. -/
theorem UpdateParams_of_decrease_nil {p : ServerParams} (h : node.updateSchedule = [])
    (hdec : p.minRecharge < node.params.minRecharge) :
    (node.UpdateParams p now).params = node.params ∧
      (node.UpdateParams p now).updateSchedule = [⟨now + decParamDelay, p⟩] := by
  obtain ⟨hp, hs⟩ := node.update_of_nil now h
  simp [UpdateParams, hp, hs, UInt64.not_le.mpr hdec]

/-- A decrease requested while one that it does not undercut is pending leaves the schedule as
it was. -/
theorem UpdateParams_of_decrease_pending {p : ServerParams} {s : ScheduledUpdate}
    (h : node.updateSchedule = [s]) (hlt : now < s.time)
    (hdec : p.minRecharge < node.params.minRecharge) (hge : s.params.minRecharge ≤ p.minRecharge) :
    (node.UpdateParams p now).params = node.params ∧ (node.UpdateParams p now).updateSchedule = [s] := by
  obtain ⟨hp, hs⟩ := node.update_of_pending now h hlt
  simp [UpdateParams, hp, hs, UInt64.not_le.mpr hdec, hge, List.findIdx?_cons]

end ClientNode

theorem UpdateParams_later_decrease_lost (node : ClientNode) (p₁ p₂ : ServerParams) (t₁ t₂ now : Int)
    (hfresh : node.updateSchedule = []) (hdec₁ : p₁.minRecharge < node.params.minRecharge)
    (hdec₂ : p₂.minRecharge < node.params.minRecharge) (hge : p₁.minRecharge ≤ p₂.minRecharge)
    (ht : t₁ ≤ t₂) (hpending : t₂ < t₁ + decParamDelay) (hnow : t₂ + decParamDelay ≤ now) :
    (((node.UpdateParams p₁ t₁).UpdateParams p₂ t₂).update now).params = p₁ := by
  -- the first decrease is scheduled for `t₁ + DecParamDelay`
  obtain ⟨hp₁, hs₁⟩ := node.UpdateParams_of_decrease_nil t₁ hfresh hdec₁
  -- at `t₂` it is not due, and the second decrease, which does not undercut it, is dropped
  obtain ⟨hp₂, hs₂⟩ := (node.UpdateParams p₁ t₁).UpdateParams_of_decrease_pending t₂ hs₁ hpending
    (hp₁ ▸ hdec₂) hge
  -- after the delay the first decrease is in force
  exact ((node.UpdateParams p₁ t₁).UpdateParams p₂ t₂).update_of_due now hs₂ (by simp only; omega) |>.1

/-- A client connected with `MinRecharge` 100: a decrease to 50 at time 0, then one to 70 a
microsecond later; three seconds on, the limit is 50. -/
theorem UpdateParams_later_decrease_lost_at_70 :
    ((((⟨⟨1000, 100⟩, 1000, 0, []⟩ : ClientNode).UpdateParams ⟨1000, 50⟩ 0).UpdateParams ⟨1000, 70⟩ 1000).update
      3000000000).params = ⟨1000, 50⟩ :=
  UpdateParams_later_decrease_lost ⟨⟨1000, 100⟩, 1000, 0, []⟩ ⟨1000, 50⟩ ⟨1000, 70⟩ 0 1000 3000000000 rfl
    (by decide) (by decide) (by decide) (by decide) (by decide) (by decide)

end Go420coin.Les
