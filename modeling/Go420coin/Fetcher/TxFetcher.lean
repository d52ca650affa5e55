import Go420coin.Core.Types
import Go420coin.Lib.Except
import Go420coin.Lib.SetMap

/-!
# The transaction fetcher (`420/fetcher/tx_fetcher.go`)

The fetcher keeps announced transaction hashes in three stages: a wait list (`waitlist`,
`waittime`, and per peer `waitslots`), a queue of announced hashes (`announced`, and per peer
`announces`), and the hashes being fetched (`fetching`, the peer's request in `requests`, and the
other peers that announced them in `alternates`).  `TxFetcher.loop` handles one event at a time:
an announcement, the expiry of the wait timer, the expiry of the fetch timeout, a delivery (direct
or broadcast), or a dropped peer.  `step` is that loop body.

Go's maps of sets are `SetMap`s.  A Go map has no iteration order; where the order of a loop
changes what it does (the peers and hashes of `scheduleFetches`, the wait list and the requests of
the two timers) the model visits, in the order of the lists of a `Visits`, those members that the
map holds.  A loop whose rounds write different keys is written as the map updated at every key it
visits (`SetMap.addWhere`, `SetMap.eraseWhere`).  Times are `mclock.AbsTime` nanoseconds; the
timers themselves, the metrics, the pool callbacks of `Notify` and `Enqueue` and the test
randomizer are left out.

`f.alternates[hash] = f.announced[hash]` stores a nil map when `announced` has no entry: the model
stores an empty set, present like Go's nil entry, which a `!= nil` check would tell apart.
-/

namespace Go420coin.Fetcher

open SetMap

/-- Peers are identified by their id string. -/
abbrev Peer := String

/-- `maxTxAnnounces`. -/
def maxTxAnnounces : Nat := 4096

/-- `maxTxRetrievals`. -/
def maxTxRetrievals : Nat := 256

/-- `txArriveTimeout`, 500 ms. -/
def txArriveTimeout : Nat := 500 * 1000000

/-- `txGatherSlack`, 100 ms. -/
def txGatherSlack : Nat := 100 * 1000000

/-- `txFetchTimeout`, 5 s. -/
def txFetchTimeout : Nat := 5 * 1000000000

/-- `txRequest`.  A nil `stolen` map and an empty one answer every lookup alike. -/
structure TxRequest where
  hashes : List Hash
  stolen : Finset Hash
  time : Nat
  deriving DecidableEq

/-- `TxFetcher`, its trackers only. -/
structure TxFetcher where
  waitlist : Hash → Option (Finset Peer)
  waittime : Hash → Option Nat
  waitslots : Peer → Option (Finset Hash)
  announces : Peer → Option (Finset Hash)
  announced : Hash → Option (Finset Peer)
  fetching : Hash → Option Peer
  requests : Peer → Option TxRequest
  alternates : Hash → Option (Finset Peer)

/-- The trackers of `NewTxFetcher`: all empty. -/
def TxFetcher.empty : TxFetcher :=
  ⟨fun _ => none, fun _ => none, fun _ => none, fun _ => none, fun _ => none, fun _ => none,
   fun _ => none, fun _ => none⟩

/-- The panics of the loop: the four sanity checks, and the nil dereference of
`f.requests[origin].stolen` for a fetched hash whose peer has no request. -/
inductive Panic where
  | waitlistAnnounced
  | alternateAnnounced
  | deliveryAnnounced
  | fetchingAlternate
  | nilRequest
  deriving DecidableEq, Repr

/-- The order in which one event's loops visit the members of Go maps: the hashes of the wait
list, the peers with requests, the peers of `scheduleFetches` and the announced hashes of each. -/
structure Visits where
  waiting : List Hash
  requests : List Peer
  peers : List Peer
  hashes : Peer → List Hash

/-- The events of the loop: `Notify`, the wait timer, the fetch timeout, `Enqueue` (a delivery,
`direct` for a reply to a request) and `Drop`. -/
inductive Event where
  | notify (origin : Peer) (hashes : List Hash)
  | waitTrigger
  | timeoutTrigger
  | cleanup (origin : Peer) (hashes : List Hash) (direct : Bool)
  | drop (peer : Peer)

variable (now : Nat) (visits : Visits)

/-! ### `scheduleFetches` -/

/-- The rounds of `forEachHash` for `peer`, collecting the allocated hashes up to
`maxTxRetrievals`. -/
def allocate (peer : Peer) : List Hash → TxFetcher × List Hash → Except Panic (TxFetcher × List Hash)
  | [], acc => .ok acc
  | hash :: rest, (f, hashes) =>
    if (f.fetching hash).isSome then allocate peer rest (f, hashes)
    else if (f.alternates hash).isSome then .error .fetchingAlternate
    else
      let f := { f with
        fetching := Function.update f.fetching hash (some peer)
        alternates := Function.update f.alternates hash (some (get f.announced hash))
        announced := Function.update f.announced hash none }
      let hashes := hashes ++ [hash]
      if hashes.length ≥ maxTxRetrievals then .ok (f, hashes) else allocate peer rest (f, hashes)

/-- One round of `forEachPeer`: an idle peer with announcements is sent a request for the
announced hashes nobody is fetching. -/
def schedulePeer (f : TxFetcher) (peer : Peer) : Except Panic TxFetcher :=
  if (f.requests peer).isSome then .ok f
  else if (get f.announces peer).card = 0 then .ok f
  else do
    let (f, hashes) ← allocate peer ((visits.hashes peer).filter (· ∈ get f.announces peer)) (f, [])
    if hashes.length > 0 then
      pure { f with requests := Function.update f.requests peer (some ⟨hashes, ∅, now⟩) }
    else pure f

/-- `scheduleFetches`: the peers of `whitelist`, or with no whitelist every peer with
announcements. -/
def scheduleFetches (f : TxFetcher) (whitelist : Option (Finset Peer)) : Except Panic TxFetcher :=
  let active : Peer → Bool := match whitelist with
    | some w => (· ∈ w)
    | none => fun peer => (f.announces peer).isSome
  visits.peers.foldlM (fun f peer => if active peer then schedulePeer now visits f peer else .ok f) f

/-! ### The events -/

/-- One round of the announcement loop: `hash` from `origin`. -/
def notifyHash (origin : Peer) (f : TxFetcher) (hash : Hash) : TxFetcher :=
  if (f.alternates hash).isSome then
    -- being fetched: one more alternate origin; stages 2 and 3 share `announces`
    { f with alternates := add f.alternates hash origin, announces := add f.announces origin hash }
  else if (f.announced hash).isSome then
    { f with announced := add f.announced hash origin, announces := add f.announces origin hash }
  else if (f.waitlist hash).isSome then
    { f with waitlist := add f.waitlist hash origin, waitslots := add f.waitslots origin hash }
  else
    { f with
      waitlist := Function.update f.waitlist hash (some {origin})
      waittime := Function.update f.waittime hash (some now)
      waitslots := add f.waitslots origin hash }

/-- The announcements a peer holds: its waiting and its queued hashes. -/
def used (f : TxFetcher) (peer : Peer) : Nat := (get f.waitslots peer).card + (get f.announces peer).card

/-- The `notify` case. -/
def notify (f : TxFetcher) (origin : Peer) (hashes : List Hash) : Except Panic TxFetcher :=
  let used := used f origin
  if used ≥ maxTxAnnounces then .ok f
  else
    let want := used + hashes.length
    let hashes := if want > maxTxAnnounces then hashes.take (want - maxTxAnnounces) else hashes
    let oldPeer := (f.announces origin).isSome
    let f := hashes.foldl (notifyHash now origin) f
    if !oldPeer && (get f.announces origin).card > 0 then scheduleFetches now visits f (some {origin})
    else .ok f

/-- One round of the wait loop: an expired hash moves to the queue of every peer that announced
it, and those peers become active. -/
def expireHash (acc : TxFetcher × Finset Peer) (hash : Hash) : Except Panic (TxFetcher × Finset Peer) :=
  let (f, actives) := acc
  match f.waittime hash with
  | none => .ok (f, actives)
  | some added =>
    if now - added + txGatherSlack > txArriveTimeout then
      if (f.announced hash).isSome then .error .waitlistAnnounced
      else
        let peers := get f.waitlist hash
        .ok ({ f with
          announced := Function.update f.announced hash (some peers)
          announces := addWhere f.announces (· ∈ peers) hash
          waitslots := eraseWhere f.waitslots (· ∈ peers) hash
          waittime := Function.update f.waittime hash none
          waitlist := Function.update f.waitlist hash none }, actives ∪ peers)
    else .ok (f, actives)

/-- The `waitTrigger` case. -/
def waitTrigger (f : TxFetcher) : Except Panic TxFetcher := do
  let (f, actives) ← visits.waiting.foldlM (expireHash now) (f, ∅)
  if actives.card > 0 then scheduleFetches now visits f (some actives) else pure f

/-- One round of the rescheduling of a timed-out request of `peer`: the hash goes back to the
queue of its alternates, without `peer`. -/
def rescheduleHash (peer : Peer) (stolen : Finset Hash) (f : TxFetcher) (hash : Hash) :
    Except Panic TxFetcher :=
  if hash ∈ stolen then .ok f
  else if (f.announced hash).isSome then .error .alternateAnnounced
  else
    -- `alternates` has no entry if the hash was broadcast during the fetch
    let announced := if (f.alternates hash).isSome then Function.update f.announced hash (f.alternates hash)
      else f.announced
    .ok { f with
      announced := prune (erase announced hash peer) hash
      announces := erase f.announces peer hash
      alternates := Function.update f.alternates hash none
      fetching := Function.update f.fetching hash none }

/-- One round of the timeout loop: a timed-out request is rescheduled and kept, with no hashes,
as dangling. -/
def timeoutPeer (f : TxFetcher) (peer : Peer) : Except Panic TxFetcher :=
  match f.requests peer with
  | none => .ok f
  | some req =>
    if now - req.time + txGatherSlack > txFetchTimeout then do
      let f ← req.hashes.foldlM (rescheduleHash peer req.stolen) f
      pure { f with
        announces := prune f.announces peer
        requests := Function.update f.requests peer (some { req with hashes := [] }) }
    else .ok f

/-- The `timeoutTrigger` case. -/
def timeoutTrigger (f : TxFetcher) : Except Panic TxFetcher := do
  let f ← visits.requests.foldlM (timeoutPeer now) f
  scheduleFetches now visits f none

/-- One round of the cleanup loop: every trace of a delivered hash goes, and a fetch of it from
another peer, or one answered by a broadcast, is marked stolen. -/
def cleanupHash (origin : Peer) (direct : Bool) (f : TxFetcher) (hash : Hash) : Except Panic TxFetcher :=
  if (f.waitlist hash).isSome then
    .ok { f with
      waitslots := eraseWhere f.waitslots (fun _ => True) hash
      waitlist := Function.update f.waitlist hash none
      waittime := Function.update f.waittime hash none }
  else do
    let f := { f with
      announces := eraseWhere f.announces (fun _ => True) hash
      announced := Function.update f.announced hash none
      alternates := Function.update f.alternates hash none }
    let f ← match f.fetching hash with
      | some o =>
        if o ≠ origin ∨ direct = false then
          match f.requests o with
          | some req => .ok { f with
              requests := Function.update f.requests o (some { req with stolen := insert hash req.stolen }) }
          | none => .error .nilRequest
        else .ok f
      | none => .ok f
    pure { f with fetching := Function.update f.fetching hash none }

/-- The position of the last requested hash that was delivered, or the number of requested hashes
if none was. -/
def cutoff (requested delivered : List Hash) : Nat :=
  requested.zipIdx.foldl (fun c (hash, i) => if hash ∈ delivered then i else c) requested.length

/-- One round of the rescheduling of a direct reply: a hash missing before the cutoff is dropped
for `origin`, and a missing hash with alternates goes back to the queue. -/
def redeliverHash (origin : Peer) (delivered : List Hash) (cut : Nat) (stolen : Finset Hash)
    (f : TxFetcher) (entry : Hash × Nat) : Except Panic TxFetcher := do
  let (hash, i) := entry
  if hash ∈ stolen then .ok f
  else
    let f ← if hash ∉ delivered then
        let f := if i < cut then { f with
            alternates := erase f.alternates hash origin
            announces := prune (erase f.announces origin hash) origin } else f
        if (get f.alternates hash).card > 0 then
          if (f.announced hash).isSome then .error .deliveryAnnounced
          else .ok { f with announced := Function.update f.announced hash (f.alternates hash) }
        else .ok f
      else .ok f
    pure { f with
      alternates := Function.update f.alternates hash none
      fetching := Function.update f.fetching hash none }

/-- The direct part of the `cleanup` case: the request of `origin` is answered. -/
def deliver (f : TxFetcher) (origin : Peer) (hashes : List Hash) : Except Panic TxFetcher :=
  match f.requests origin with
  | none => .ok f
  | some req => do
    let f := { f with requests := Function.update f.requests origin none }
    let f ← req.hashes.zipIdx.foldlM (redeliverHash origin hashes (cutoff req.hashes hashes) req.stolen) f
    scheduleFetches now visits f none

/-- The `cleanup` case. -/
def cleanup (f : TxFetcher) (origin : Peer) (hashes : List Hash) (direct : Bool) :
    Except Panic TxFetcher := do
  let f ← hashes.foldlM (cleanupHash origin direct) f
  if direct then deliver now visits f origin hashes else pure f

/-- One round of the cleanup of a dropped peer's request: the hash goes back to the queue of its
other alternates, if any. -/
def dropRequestHash (peer : Peer) (stolen : Finset Hash) (f : TxFetcher) (hash : Hash) : TxFetcher :=
  if hash ∈ stolen then f
  else
    let alternates := erase f.alternates hash peer
    let f := if (get alternates hash).card = 0 then { f with alternates := Function.update alternates hash none }
      else { f with
        announced := Function.update f.announced hash (alternates hash)
        alternates := Function.update alternates hash none }
    { f with fetching := Function.update f.fetching hash none }

/-- The `drop` case: the peer's waiting announcements, its request and its queued announcements
go. -/
def drop (f : TxFetcher) (peer : Peer) : Except Panic TxFetcher :=
  let f := match f.waitslots peer with
    | some slots =>
      -- a hash whose wait list the peer leaves empty is forgotten
      let emptied := fun hash => hash ∈ slots ∧ ((get f.waitlist hash).erase peer).card = 0
      { f with
        waitlist := eraseWhere f.waitlist (· ∈ slots) peer
        waittime := fun hash => if emptied hash then none else f.waittime hash
        waitslots := Function.update f.waitslots peer none }
    | none => f
  let request := f.requests peer
  let f := match request with
    | some req =>
      let f := req.hashes.foldl (dropRequestHash peer req.stolen) f
      { f with requests := Function.update f.requests peer none }
    | none => f
  let f := match f.announces peer with
    | some hashes => { f with
        announced := eraseWhere f.announced (· ∈ hashes) peer
        announces := Function.update f.announces peer none }
    | none => f
  if request.isSome then scheduleFetches now visits f none else .ok f

/-- `TxFetcher.loop`: one event, at time `now`, with the loops visiting in the order `visits`. -/
def step (f : TxFetcher) : Event → Except Panic TxFetcher
  | .notify origin hashes => notify now visits f origin hashes
  | .waitTrigger => waitTrigger now visits f
  | .timeoutTrigger => timeoutTrigger now visits f
  | .cleanup origin hashes direct => cleanup now visits f origin hashes direct
  | .drop peer => drop now visits f peer

/-- A run of events, each at its time and with its visiting order. -/
def run (events : List (Nat × Visits × Event)) (f : TxFetcher) : Except Panic TxFetcher :=
  events.foldlM (fun f e => step e.1 e.2.1 f e.2.2) f

/-- The states the loop reaches from a new fetcher. -/
inductive Reachable : TxFetcher → Prop where
  | empty : Reachable TxFetcher.empty
  | step {f f' : TxFetcher} (now : Nat) (visits : Visits) (e : Event) :
      Reachable f → step now visits f e = .ok f' → Reachable f'

end Go420coin.Fetcher
