import Go420coin.P2p.Table
import Go420coin.Lib.BigEndian
import Go420coin.Lib.Least

/-!
# Node lookups (`p2p/discover/lookup.go`, `nodesByDistance`, `findnodeByID`)

A lookup keeps the nodes closest to its target in a `nodesByDistance`, whose `push` finds with
`sort.Search` the first entry farther from the target than the new node and slides the entries
after it one place down, the last one falling off when the list is full.  `DistCmp` compares two
IDs by their XOR distance to the target byte by byte, which is the order of the distances read as
big-endian numbers (`distCmp_pos_iff`), and two IDs are at one distance only if they are equal
(`dist_inj`).  So a push keeps the `bucketSize` least of the nodes pushed (`push_isLeast`), and
`findnodeByID` returns the `nresults` entries of the table closest to the target
(`findnodeByID_isLeast`).

The lookup itself starts with the local table's closest nodes as its first reply, then asks the
closest nodes it has not asked, at most `alpha` at a time.  Each query runs in a goroutine and
sends its answer on `replyCh`; the model keeps the replies still to come as a list, and a reply is
received in any order, with any answer from the queried node.  The IDs passed to `queryfunc` and
the nodes pushed into the result are kept as history, to state what the lookup guarantees:
every reachable state keeps the result the closest nodes seen, asks no ID twice and never the
local node, and has at most `alpha` replies outstanding (`reachable_inv`).

The side effects of a query on the table (`addSeenNode`, `delete`, the failure counters in the
database) are left out: the lookup reads the table once, before its first query.
-/

namespace Go420coin.Discover

open BigEndian

/-- `alpha`, the Kademlia concurrency factor. -/
def alpha : Nat := 3

/-! ### Distances -/

/-- The loop of `enode.DistCmp`, over the bytes of the target and the two IDs. -/
def distCmpLoop : List UInt8 → List UInt8 → List UInt8 → Int
  | t :: ts, a :: as, b :: bs =>
    let da := a ^^^ t
    let db := b ^^^ t
    if da > db then 1 else if da < db then -1 else distCmpLoop ts as bs
  | _, _, _ => 0

/-- `enode.DistCmp`: `1` if `b` is closer to `target` than `a`, `-1` if `a` is closer. -/
def distCmp (target a b : NodeID) : Int := distCmpLoop target.toList a.toList b.toList

/-- The XOR distance of `a` to `target`, read as a big-endian number. -/
def dist (target a : NodeID) : Nat := ofBytes (List.zipWith (· ^^^ ·) a.toList target.toList)

theorem length_zipWith_xor {as ts : List UInt8} (h : as.length = ts.length) :
    (List.zipWith (· ^^^ ·) as ts).length = ts.length := by
  simp [h]

theorem distCmpLoop_pos_iff : ∀ {ts as bs : List UInt8}, as.length = ts.length → bs.length = ts.length →
    (0 < distCmpLoop ts as bs ↔
      ofBytes (List.zipWith (· ^^^ ·) bs ts) < ofBytes (List.zipWith (· ^^^ ·) as ts))
  | [], [], [], _, _ => by simp [distCmpLoop]
  | t :: ts, a :: as, b :: bs, ha, hb => by
    have ha' : as.length = ts.length := by simpa using ha
    have hb' : bs.length = ts.length := by simpa using hb
    rw [List.zipWith_cons_cons, List.zipWith_cons_cons,
      ofBytes_cons_lt_iff (by rw [length_zipWith_xor hb', length_zipWith_xor ha'])]
    simp only [distCmpLoop]
    -- the first bytes that differ decide; equal bytes pass to the rest
    split_ifs with hgt hlt
    · simp [hgt]
    · simp only [Int.reduceNeg, Int.reduceLT, false_iff, not_or, not_and]
      exact ⟨Std.not_lt.2 (Std.le_of_lt hlt), fun heq => absurd (heq ▸ hlt) (Std.lt_irrefl)⟩
    · have heq : a ^^^ t = b ^^^ t := by
        simp only [gt_iff_lt, UInt8.lt_iff_toNat_lt, Nat.not_lt] at hgt hlt
        exact UInt8.toNat_inj.1 (Nat.le_antisymm hgt hlt)
      rw [distCmpLoop_pos_iff ha' hb', heq]
      simp [Std.lt_irrefl]

/-- `DistCmp` is positive exactly when `b` is closer to the target than `a`. -/
theorem distCmp_pos_iff (target a b : NodeID) : 0 < distCmp target a b ↔ dist target b < dist target a :=
  distCmpLoop_pos_iff (by simp) (by simp)

theorem zipWith_xor_inj : ∀ {as bs ts : List UInt8}, as.length = ts.length → bs.length = ts.length →
    List.zipWith (· ^^^ ·) as ts = List.zipWith (· ^^^ ·) bs ts → as = bs
  | [], [], [], _, _, _ => rfl
  | a :: as, b :: bs, t :: ts, ha, hb, h => by
    rw [List.zipWith_cons_cons, List.zipWith_cons_cons, List.cons.injEq] at h
    rw [(UInt8.xor_left_inj t).1 h.1, zipWith_xor_inj (by simpa using ha) (by simpa using hb) h.2]
  | [], _ :: _, _, ha, hb, _ => by simp at ha hb; omega
  | _ :: _, [], _, ha, hb, _ => by simp at ha hb; omega
  | [], [], _ :: _, ha, _, _ => by simp at ha
  | _ :: _, _ :: _, [], ha, _, _ => by simp at ha

/-- Two IDs at one distance from the target are the same ID. -/
theorem dist_inj {target a b : NodeID} (h : dist target a = dist target b) : a = b := by
  have hz := ofBytes_inj_of_length_eq (by simp) h
  exact Vector.toList_inj.1 (zipWith_xor_inj (by simp) (by simp) hz)

/-! ### `nodesByDistance` -/

/-- `nodesByDistance`: nodes ordered by their distance to `target`. -/
structure NodesByDistance where
  entries : List Node
  target : NodeID

/-- `copy(s[ix+1:], s[ix:])`: the elements from `ix` on move one place towards the end, and the last
one falls off. -/
def shiftDown {α : Type} (s : List α) (ix : Nat) : List α := s.take (ix + 1) ++ (s.drop ix).take (s.length - (ix + 1))

/-- The test that `push` gives `sort.Search`: the entry at `i` is farther from the target than `n`. -/
def NodesByDistance.fartherAt (h : NodesByDistance) (n : Node) (i : Nat) : Bool :=
  match h.entries[i]? with
  | some e => decide (distCmp h.target e.id n.id > 0)
  | none => false

/-- `push`: `n` goes before the first entry farther than it; the list grows while it is shorter than
`maxElems`, and otherwise its last entry falls off. -/
def NodesByDistance.push (h : NodesByDistance) (n : Node) (maxElems : Nat) : NodesByDistance :=
  let ix := Search.search h.entries.length (h.fartherAt n)
  let entries := if h.entries.length < maxElems then h.entries ++ [n] else h.entries
  if ix = entries.length then { h with entries := entries }
  else { h with entries := (shiftDown entries ix).set ix n }

theorem shiftDown_set {α : Type} {s : List α} {ix : Nat} (hix : ix < s.length) (x : α) :
    (shiftDown s ix).set ix x = (s.take ix ++ x :: s.drop ix).take s.length := by
  have hlt : (s.take ix).length = ix := by simp; omega
  rw [shiftDown, List.take_succ_eq_append_getElem hix, List.append_assoc, List.set_append_right _ _ (by omega),
    hlt, Nat.sub_self, List.singleton_append, List.set_cons_zero, List.take_append, hlt, List.take_take,
    Nat.min_eq_right hix.le, List.take_cons (by omega)]
  congr 3

theorem push_entries {h : NodesByDistance} {n : Node} {maxElems : Nat} (hlen : h.entries.length ≤ maxElems) :
    (h.push n maxElems).entries =
      (h.entries.insertIdx (Search.search h.entries.length (h.fartherAt n)) n).take maxElems := by
  have hix := Search.search_le h.entries.length (h.fartherAt n)
  unfold NodesByDistance.push
  dsimp only
  generalize Search.search h.entries.length (h.fartherAt n) = ix at hix ⊢
  rw [Search.insertIdx_eq_take_drop n hix]
  by_cases hroom : h.entries.length < maxElems
  · -- the list grows: `n` is appended, then moved into place
    rw [if_pos hroom, if_neg (by simp; omega), shiftDown_set (by simp; omega),
      List.take_append_of_le_length hix, List.drop_append_of_le_length hix]
    have hA : (h.entries.take ix ++ n :: h.entries.drop ix).length = h.entries.length + 1 := by simp; omega
    rw [show h.entries.take ix ++ n :: (h.entries.drop ix ++ [n]) =
        (h.entries.take ix ++ n :: h.entries.drop ix) ++ [n] by simp,
      List.length_append, List.length_singleton, List.take_left' hA,
      List.take_of_length_le (l := h.entries.take ix ++ n :: h.entries.drop ix) (by omega)]
  · -- the list is full: the last entry falls off
    have hfull : h.entries.length = maxElems := by omega
    rw [if_neg hroom]
    by_cases hend : ix = h.entries.length
    · subst hend
      simp only [List.take_length, List.drop_length, ite_true]
      rw [List.take_left' hfull]
    · rw [if_neg hend, shiftDown_set (by omega), hfull]


@[simp] theorem push_target (h : NodesByDistance) (n : Node) (maxElems : Nat) :
    (h.push n maxElems).target = h.target := by
  unfold NodesByDistance.push
  dsimp only
  split_ifs <;> rfl

section Push

variable {h : NodesByDistance} {m : Nat} {S : List Node} {n : Node}

/-- With `n` at a distance of its own, the predicate `sort.Search` is given holds exactly at the
entries farther than `n`. -/
theorem atLeast_fartherAt (hne : ∀ y ∈ h.entries, y.id ≠ n.id) :
    Search.AtLeast (fun y : Node => dist h.target y.id) h.entries (dist h.target n.id) (h.fartherAt n) := by
  intro i hi
  have hne' : dist h.target h.entries[i].id ≠ dist h.target n.id :=
    fun heq => hne _ (List.getElem_mem hi) (dist_inj heq)
  simp only [NodesByDistance.fartherAt, List.getElem?_eq_getElem hi, gt_iff_lt, decide_eq_true_eq,
    distCmp_pos_iff]
  omega

/-- A push of a node of a new ID keeps the `m` least of the nodes pushed. -/
theorem push_isLeast (hl : Least.IsLeast (fun y : Node => dist h.target y.id) m S h.entries)
    (hn : ∀ y ∈ S, y.id ≠ n.id) :
    Least.IsLeast (fun y : Node => dist h.target y.id) m (n :: S) (h.push n m).entries := by
  have hne : ∀ y ∈ h.entries, y.id ≠ n.id := fun y hy => hn y (hl.mem y hy)
  have hf := atLeast_fartherAt hne
  rw [push_entries (by rw [hl.length]; omega)]
  refine hl.insert (fun y hy heq => hn y hy (dist_inj heq)) (Search.search_le _ _)
    (Search.lt_of_mem_take_search hl.sorted hf) fun y hy => ?_
  have hnot := Search.not_lt_of_mem_drop_search hl.sorted hf y hy
  have hyn : dist h.target y.id ≠ dist h.target n.id :=
    fun heq => hne y (List.mem_of_mem_drop hy) (dist_inj heq)
  omega

/-- Pushing nodes of distinct new IDs, one after the other, keeps the `m` least of all of them. -/
theorem foldl_push_isLeast : ∀ (E : List Node) {h : NodesByDistance} {S : List Node},
    Least.IsLeast (fun y : Node => dist h.target y.id) m S h.entries →
    (E.map Node.id).Nodup → (∀ x ∈ E, ∀ y ∈ S, y.id ≠ x.id) →
    Least.IsLeast (fun y : Node => dist h.target y.id) m (E.reverse ++ S) (E.foldl (·.push · m) h).entries
  | [], _, _, hl, _, _ => by simpa using hl
  | x :: E, h, S, hl, hnodup, hfresh => by
    rw [List.map_cons, List.nodup_cons] at hnodup
    have hx := push_isLeast hl (hfresh x List.mem_cons_self)
    rw [← push_target h x m] at hx
    have hrest := foldl_push_isLeast E hx hnodup.2 fun z hz y hy => by
      rcases List.mem_cons.1 hy with rfl | hy
      · exact fun heq => hnodup.1 (heq ▸ List.mem_map_of_mem hz)
      · exact hfresh z (List.mem_cons_of_mem _ hz) y hy
    rw [List.foldl_cons, List.reverse_cons, List.append_assoc, List.singleton_append]
    have ht : ((h.push x m).target) = h.target := push_target h x m
    rw [ht] at hrest
    exact hrest

end Push

/-! ### `findnodeByID` -/

/-- The entries of all buckets, in the order `findnodeByID` scans them. -/
def Table.allEntries (tab : Table) : List Node := (List.range nBuckets).flatMap fun i => (tab.buckets i).entries

/-- `Table.findnodeByID`: every entry pushed into a list of `nresults`; with `preferLive`, the entries
that passed a liveness check (`live`) also into a second list, returned if it is not empty. -/
def Table.findnodeByID (tab : Table) (target : NodeID) (nresults : Nat) (preferLive : Bool)
    (live : Node → Bool) : NodesByDistance :=
  let (nodes, liveNodes) := tab.allEntries.foldl (fun (acc : NodesByDistance × NodesByDistance) n =>
      (acc.1.push n nresults, if preferLive && live n then acc.2.push n nresults else acc.2))
    (⟨[], target⟩, ⟨[], target⟩)
  if preferLive && !liveNodes.entries.isEmpty then liveNodes else nodes

/-- The first list of the scan is the plain fold of pushes, whatever the second list does. -/
theorem foldl_pair_fst (nresults : Nat) (g : NodesByDistance × NodesByDistance → Node → NodesByDistance) :
    ∀ (E : List Node) (acc : NodesByDistance × NodesByDistance),
    (E.foldl (fun acc n => (acc.1.push n nresults, g acc n)) acc).1 = E.foldl (·.push · nresults) acc.1
  | [], _ => rfl
  | _ :: E, _ => foldl_pair_fst nresults g E _

/-- Without `preferLive`, `findnodeByID` returns the `nresults` entries closest to the target, in
increasing distance, as long as the table holds each ID once. -/
theorem findnodeByID_isLeast (tab : Table) (target : NodeID) (nresults : Nat) (live : Node → Bool)
    (hnodup : (tab.allEntries.map Node.id).Nodup) :
    Least.IsLeast (fun y : Node => dist target y.id) nresults tab.allEntries
      (tab.findnodeByID target nresults false live).entries := by
  have h := foldl_push_isLeast (m := nresults) tab.allEntries (h := ⟨[], target⟩) (Least.isLeast_nil nresults)
    hnodup (fun _ _ _ hy => absurd hy List.not_mem_nil)
  rw [List.append_nil] at h
  unfold Table.findnodeByID
  simp only [Bool.false_and, Bool.false_eq_true, if_false]
  rw [foldl_pair_fst]
  exact h.perm (List.reverse_perm _)


/-! ### The lookup -/

/-- A reply on `replyCh` still to come: the closest nodes of the local table, which the first
`startQueries` sends at once, or the answer of the node a query went to. -/
inductive Reply where
  | table (nodes : List Node)
  | query (n : Node)

/-- `lookup`, with the replies still to come on `replyCh` (`pending`), whether `queryfunc` is still
set, and two histories: the IDs passed to `queryfunc` and the nodes pushed into `result`, latest
first. -/
structure Lookup where
  asked : NodeID → Bool
  seen : NodeID → Bool
  result : NodesByDistance
  replyBuffer : List Node
  queries : Int
  queryfunc : Bool
  pending : List Reply
  queried : List NodeID
  pushed : List Node

/-- `newLookup`: only the local node counts as asked, and the first query is still to be served
from the table. -/
def newLookup (tab : Table) (target : NodeID) : Lookup where
  asked := Function.update (fun _ => false) tab.self true
  seen := fun _ => false
  result := ⟨[], target⟩
  replyBuffer := []
  queries := -1
  queryfunc := true
  pending := []
  queried := []
  pushed := []

namespace Lookup

/-- The body of the loop of `startQueries` for a node not asked yet: `go it.query(n, it.replyCh)`. -/
def ask (it : Lookup) (n : Node) : Lookup :=
  { it with asked := Function.update it.asked n.id true, queries := it.queries + 1,
            pending := it.pending ++ [.query n], queried := n.id :: it.queried }

/-- The loop of `startQueries` over the result's entries, closest first, while fewer than `alpha`
queries are out. -/
def askLoop : List Node → Lookup → Lookup
  | [], it => it
  | n :: ns, it => if it.queries < alpha then askLoop ns (if !it.asked n.id then it.ask n else it) else it

/-- `startQueries`: `false` once `queryfunc` is cleared; the first time, the table's closest nodes
as the reply of one query; then a query to each of the closest nodes not asked yet, up to `alpha`
out at once, and `true` if any query is out.  (The pause `slowdown` makes on an empty table changes
nothing here.) -/
def startQueries (tab : Table) (it : Lookup) : Bool × Lookup :=
  if !it.queryfunc then (false, it)
  else if it.queries = -1 then
    let closest := tab.findnodeByID it.result.target bucketSize false fun _ => false
    (true, { it with queries := 1, pending := it.pending ++ [.table closest.entries] })
  else
    let it := askLoop it.result.entries it
    (decide (0 < it.queries), it)

/-- The body of the loop of `advance` over a reply, for a node not seen yet. -/
def accept (it : Lookup) (n : Node) : Lookup :=
  { it with seen := Function.update it.seen n.id true, result := it.result.push n bucketSize,
            replyBuffer := it.replyBuffer ++ [n], pushed := n :: it.pushed }

/-- The loop of `advance` over a reply: nil nodes and nodes seen before are skipped. -/
def receiveLoop : List (Option Node) → Lookup → Lookup
  | [], it => it
  | none :: ns, it => receiveLoop ns it
  | some n :: ns, it => receiveLoop ns (if !it.seen n.id then it.accept n else it)

/-- The `replyCh` case of `advance`: the reply `k` of those to come arrives with `nodes`. -/
def receive (it : Lookup) (k : Nat) (nodes : List (Option Node)) : Lookup :=
  let it := receiveLoop nodes { it with replyBuffer := [] }
  { it with pending := it.pending.eraseIdx k, queries := it.queries - 1 }

/-- `shutdown`: the replies still out are received and dropped, and `queryfunc` is cleared. -/
def shutdown (it : Lookup) : Lookup :=
  { it with pending := it.pending.drop it.queries.toNat, queries := min it.queries 0,
            queryfunc := false, replyBuffer := [] }

/-- What ends the `select` of `advance`: a reply, in any order, with any answer of a queried
node; or the context's cancellation. -/
inductive Event where
  | deliver (k : Nat) (answer : List (Option Node))
  | cancel

/-- The `select` of `advance`; `none` when there is no reply `k` to come. -/
def select (it : Lookup) : Event → Option Lookup
  | .deliver k answer =>
    match it.pending[k]? with
    | some (.table nodes) => some (it.receive k (nodes.map some))
    | some (.query _) => some (it.receive k answer)
    | none => none
  | .cancel => some it.shutdown

theorem askLoop_cons (n : Node) (ns : List Node) (it : Lookup) :
    askLoop (n :: ns) it =
      if it.queries < alpha then askLoop ns (if !it.asked n.id then it.ask n else it) else it := rfl

theorem receiveLoop_none (ns : List (Option Node)) (it : Lookup) :
    receiveLoop (none :: ns) it = receiveLoop ns it := rfl

theorem receiveLoop_some (n : Node) (ns : List (Option Node)) (it : Lookup) :
    receiveLoop (some n :: ns) it = receiveLoop ns (if !it.seen n.id then it.accept n else it) := rfl

/-- A reply changes no reply still to come. -/
theorem receiveLoop_pending : ∀ (ns : List (Option Node)) (it : Lookup),
    (receiveLoop ns it).pending = it.pending
  | [], _ => rfl
  | none :: ns, it => receiveLoop_pending ns it
  | some n :: ns, it => by
    rw [receiveLoop_some, receiveLoop_pending ns]
    split_ifs <;> rfl

end Lookup

/-- The states of a lookup for `target` over `tab`: before and after each `startQueries` of
`advance`, and after each `select` that follows a `startQueries` that returned `true`. -/
inductive Reachable (tab : Table) (target : NodeID) : Lookup → Prop where
  | init : Reachable tab target (newLookup tab target)
  | start {it : Lookup} : Reachable tab target it → Reachable tab target (it.startQueries tab).2
  | step {it it' : Lookup} (e : Lookup.Event) : Reachable tab target it → (it.startQueries tab).1 = true →
      (it.startQueries tab).2.select e = some it' → Reachable tab target it'


/-! ### What a lookup keeps -/

/-- The result and the nodes seen: the result holds the `bucketSize` nodes closest to the target
of those pushed, each ID is pushed once, and `seen` is the set of the IDs pushed. -/
structure ResultInv (target : NodeID) (result : NodesByDistance) (seen : NodeID → Bool)
    (pushed : List Node) : Prop where
  target_eq : result.target = target
  least : Least.IsLeast (fun y : Node => dist target y.id) bucketSize pushed result.entries
  nodup : (pushed.map Node.id).Nodup
  seen_iff : ∀ id, seen id = true ↔ id ∈ pushed.map Node.id

/-- The nodes asked: the local node from the start, and each ID passed to `queryfunc`, once. -/
structure AskInv (localID : NodeID) (asked : NodeID → Bool) (queried : List NodeID) : Prop where
  asked_self : asked localID = true
  asked_of_mem : ∀ id ∈ queried, asked id = true
  nodup : queried.Nodup
  self_not_mem : localID ∉ queried

/-- The queries out: one reply to come for each, at most `alpha` of them, and `-1` before the
first. -/
structure FlightInv (queries : Int) (pending : List Reply) : Prop where
  length : (pending.length : Int) = max queries 0
  ge : -1 ≤ queries
  le : queries ≤ alpha

/-- What every state of a lookup for `target` over `tab` keeps. -/
structure Lookup.Inv (tab : Table) (target : NodeID) (it : Lookup) : Prop where
  result : ResultInv target it.result it.seen it.pushed
  asked : AskInv tab.self it.asked it.queried
  flight : FlightInv it.queries it.pending

section ResultInv

variable {target : NodeID} {result : NodesByDistance} {seen : NodeID → Bool} {pushed : List Node}

/-- A node of an ID not seen yet is pushed, and its ID marked seen. -/
theorem ResultInv.accept (h : ResultInv target result seen pushed) {n : Node} (hn : seen n.id = false) :
    ResultInv target (result.push n bucketSize) (Function.update seen n.id true) (n :: pushed) := by
  have hfresh : n.id ∉ pushed.map Node.id := fun hmem => by
    rw [(h.seen_iff n.id).2 hmem] at hn
    cases hn
  have hl : Least.IsLeast (fun y : Node => dist result.target y.id) bucketSize pushed result.entries := by
    rw [h.target_eq]
    exact h.least
  refine ⟨by rw [push_target, h.target_eq], ?_, ?_, fun id => ?_⟩
  · have hpush := push_isLeast hl fun y hy heq => hfresh (heq ▸ List.mem_map_of_mem hy)
    rwa [h.target_eq] at hpush
  · rw [List.map_cons, List.nodup_cons]
    exact ⟨hfresh, h.nodup⟩
  · by_cases hid : id = n.id
    · subst hid
      simp
    · rw [Function.update_of_ne hid, h.seen_iff, List.map_cons, List.mem_cons]
      exact (or_iff_right hid).symm

/-- The result never holds an ID twice. -/
theorem ResultInv.ids_nodup (h : ResultInv target result seen pushed) : (result.entries.map Node.id).Nodup :=
  List.pairwise_map.2 <| h.least.sorted.imp fun {a b} hab heq => by
    rw [heq] at hab
    exact lt_irrefl _ hab

end ResultInv

section AskInv

variable {localID : NodeID} {asked : NodeID → Bool} {queried : List NodeID}

/-- An ID not asked yet is asked, and passed to `queryfunc`. -/
theorem AskInv.ask (h : AskInv localID asked queried) {id : NodeID} (hn : asked id = false) :
    AskInv localID (Function.update asked id true) (id :: queried) := by
  have hne : localID ≠ id := fun heq => by
    rw [← heq, h.asked_self] at hn
    cases hn
  have hnot : id ∉ queried := fun hmem => by
    rw [h.asked_of_mem id hmem] at hn
    cases hn
  refine ⟨by rw [Function.update_of_ne hne]; exact h.asked_self, fun x hx => ?_, List.nodup_cons.2 ⟨hnot, h.nodup⟩,
    by rw [List.mem_cons, not_or]; exact ⟨hne, h.self_not_mem⟩⟩
  by_cases hx' : x = id
  · subst hx'
    simp
  · rw [Function.update_of_ne hx']
    exact h.asked_of_mem x ((List.mem_cons.1 hx).resolve_left hx')

end AskInv

section FlightInv

variable {queries : Int} {pending : List Reply}

/-- A query is sent while fewer than `alpha` are out. -/
theorem FlightInv.ask (h : FlightInv queries pending) (h0 : 0 ≤ queries) (hq : queries < alpha) (r : Reply) :
    FlightInv (queries + 1) (pending ++ [r]) := by
  have hlen := h.length
  refine ⟨?_, by omega, by omega⟩
  rw [List.length_append, List.length_singleton, Nat.cast_add, hlen, max_eq_left h0,
    max_eq_left (by omega)]
  rfl

/-- The first query is served from the table. -/
theorem FlightInv.first (h : FlightInv (-1) pending) (r : Reply) : FlightInv 1 (pending ++ [r]) := by
  have hlen := h.length
  refine ⟨?_, by decide, by decide⟩
  rw [List.length_append, List.length_singleton, Nat.cast_add, hlen]
  rfl

/-- A reply arrives: one query fewer is out. -/
theorem FlightInv.receive (h : FlightInv queries pending) {k : Nat} (hk : k < pending.length) :
    FlightInv (queries - 1) (pending.eraseIdx k) := by
  have hlen := h.length
  have hle := h.le
  refine ⟨?_, by omega, by omega⟩
  rw [List.length_eraseIdx_of_lt hk]
  omega

/-- All replies out are received and dropped. -/
theorem FlightInv.shutdown (h : FlightInv queries pending) :
    FlightInv (min queries 0) (pending.drop queries.toNat) := by
  have hlen := h.length
  have hge := h.ge
  refine ⟨?_, by omega, by omega⟩
  rw [List.length_drop]
  omega

/-- At most `alpha` replies are to come. -/
theorem FlightInv.length_le (h : FlightInv queries pending) : pending.length ≤ alpha := by
  have hlen := h.length
  have hle := h.le
  omega

end FlightInv


namespace Lookup

section Inv

variable {tab : Table} {target : NodeID} {it : Lookup}

theorem inv_newLookup (tab : Table) (target : NodeID) : Inv tab target (newLookup tab target) where
  result := ⟨rfl, Least.isLeast_nil _, List.nodup_nil, fun _ => by simp [newLookup]⟩
  asked := ⟨by simp [newLookup], fun _ h => absurd h List.not_mem_nil, List.nodup_nil, List.not_mem_nil⟩
  flight := ⟨rfl, le_refl _, show (-1 : Int) ≤ alpha by decide⟩

theorem Inv.ask (h : Inv tab target it) (h0 : 0 ≤ it.queries) (hq : it.queries < alpha) {n : Node}
    (hn : it.asked n.id = false) : Inv tab target (it.ask n) :=
  ⟨h.result, h.asked.ask hn, h.flight.ask h0 hq _⟩

/-- The loop of `startQueries` keeps the invariant; the count of queries only grows in it. -/
theorem askLoop_inv : ∀ (ns : List Node) {it : Lookup}, Inv tab target it → 0 ≤ it.queries →
    Inv tab target (askLoop ns it)
  | [], _, h, _ => h
  | n :: ns, it, h, h0 => by
    rw [askLoop_cons]
    split_ifs with hq hn
    · exact askLoop_inv ns (h.ask h0 hq (by simpa using hn)) (show 0 ≤ it.queries + 1 by omega)
    · exact askLoop_inv ns h h0
    · exact h

theorem startQueries_inv (h : Inv tab target it) : Inv tab target (it.startQueries tab).2 := by
  unfold startQueries
  split_ifs with hf hq
  · exact h
  · -- the first query: the table's closest nodes are the one reply to come
    have hflight := h.flight
    rw [hq] at hflight
    exact ⟨h.result, h.asked, hflight.first _⟩
  · exact askLoop_inv _ h (by have := h.flight.ge; omega)

theorem Inv.accept (h : Inv tab target it) {n : Node} (hn : it.seen n.id = false) :
    Inv tab target (it.accept n) :=
  ⟨h.result.accept hn, h.asked, h.flight⟩

/-- The loop over a reply keeps the invariant. -/
theorem receiveLoop_inv : ∀ (ns : List (Option Node)) {it : Lookup}, Inv tab target it →
    Inv tab target (receiveLoop ns it)
  | [], _, h => h
  | none :: ns, _, h => receiveLoop_inv ns h
  | some n :: ns, it, h => by
    rw [receiveLoop_some]
    split_ifs with hn
    · exact receiveLoop_inv ns (h.accept (by simpa using hn))
    · exact receiveLoop_inv ns h

theorem receive_inv (h : Inv tab target it) {k : Nat} (hk : k < it.pending.length) (nodes : List (Option Node)) :
    Inv tab target (it.receive k nodes) := by
  have h' : Inv tab target (receiveLoop nodes { it with replyBuffer := [] }) :=
    receiveLoop_inv nodes ⟨h.result, h.asked, h.flight⟩
  have hk' : k < (receiveLoop nodes { it with replyBuffer := [] }).pending.length := by
    rw [receiveLoop_pending]
    exact hk
  exact ⟨h'.result, h'.asked, h'.flight.receive hk'⟩

theorem shutdown_inv (h : Inv tab target it) : Inv tab target it.shutdown :=
  ⟨h.result, h.asked, h.flight.shutdown⟩

theorem select_inv (h : Inv tab target it) {e : Event} {it' : Lookup} (hs : it.select e = some it') :
    Inv tab target it' := by
  cases e with
  | deliver k answer =>
    -- a reply to come is received, the table's nodes or the queried node's answer
    rw [select] at hs
    split at hs
    · rename_i hp
      cases hs
      exact receive_inv h (List.getElem?_eq_some_iff.1 hp).1 _
    · rename_i hp
      cases hs
      exact receive_inv h (List.getElem?_eq_some_iff.1 hp).1 _
    · cases hs
  | cancel =>
    cases hs
    exact shutdown_inv h

end Inv

/-- Every state of a lookup keeps the invariant. -/
theorem reachable_inv {tab : Table} {target : NodeID} {it : Lookup} (h : Reachable tab target it) :
    Inv tab target it := by
  induction h with
  | init => exact inv_newLookup tab target
  | start _ ih => exact startQueries_inv ih
  | step e _ _ hs ih => exact select_inv (startQueries_inv ih) hs

end Lookup


/-- At every point of a lookup, over any table and whatever the queried nodes answer: the result
lists, in strictly increasing distance to the target and each ID once, the `bucketSize` nodes
closest to the target of all those seen; no ID is passed to `queryfunc` twice and the local node
never; at most `alpha` queries are out.  And over a table that holds each ID once, `findnodeByID`
without `preferLive` returns the `nresults` entries closest to the target, in increasing distance. -/
theorem lookup_closest_unique_bounded {tab : Table} {target : NodeID} {it : Lookup}
    (h : Reachable tab target it) :
    (it.result.entries.Pairwise (fun a b => dist target a.id < dist target b.id) ∧
      (it.result.entries.map Node.id).Nodup ∧ it.result.entries.length ≤ bucketSize ∧
      (∀ id, it.seen id = true ↔ id ∈ it.pushed.map Node.id) ∧
      Least.IsLeast (fun y : Node => dist target y.id) bucketSize it.pushed it.result.entries) ∧
    (it.queried.Nodup ∧ tab.self ∉ it.queried) ∧
    (it.queries ≤ alpha ∧ it.pending.length ≤ alpha) ∧
    ∀ (nresults : Nat) (live : Node → Bool), (tab.allEntries.map Node.id).Nodup →
      Least.IsLeast (fun y : Node => dist target y.id) nresults tab.allEntries
        (tab.findnodeByID target nresults false live).entries := by
  have hinv := Lookup.reachable_inv h
  have hlen : it.result.entries.length ≤ bucketSize := by
    rw [hinv.result.least.length]
    exact min_le_left _ _
  exact ⟨⟨hinv.result.least.sorted, hinv.result.ids_nodup, hlen, hinv.result.seen_iff, hinv.result.least⟩,
    ⟨hinv.asked.nodup, hinv.asked.self_not_mem⟩, ⟨hinv.flight.le, hinv.flight.length_le⟩,
    fun nresults live hnodup => findnodeByID_isLeast tab target nresults live hnodup⟩

/-- The first `startQueries` of a lookup over a table with a replacement. -/
theorem lookup_closest_unique_bounded_first :
    ((newLookup farReplacementTable (Vector.replicate 32 0)).startQueries farReplacementTable).2.pending.length ≤ alpha :=
  (lookup_closest_unique_bounded (.start .init)).2.2.1.2

end Go420coin.Discover
