import Go420coin.Bloombits.Scheduler
import Go420coin.Lib.Search
import Go420coin.Lib.Loop
import Mathlib

/-!
# The request distributor of a matching session (`Matcher.distributor`)

The schedulers of a session send their section requests to one distributor, which queues them per
bloom bit, in order of section, and hands them out to the session's retrievers (`Multiplex`): a
retriever first gets a bit, then takes the first sections of its queue, and delivers their bit
vectors; the sections that come back empty are queued again.  A bit with requests is given to a
waiting retriever at once, or else kept in `unallocs` until one arrives, which then gets the bit
whose queue starts lowest.

A `Pool` is the distributor with its retrievers; `Pool.Step` is every event of its loop, in any order,
with the session's `Close` and, after it, the `quit` cases of `allocateSections`, where a retriever
holding a bit gets no sections and the distributor hears nothing, and of `allocateRetrieval`, where
a waiting retriever leaves.  In every reachable state
(`reachable_inv`):
* the queues stay sorted, and every section a scheduler sent is, exactly once, in its bit's queue,
  in a retrieval in flight, or delivered (`sections_conserved`);
* a bit is never both waiting in `unallocs` and held, and while the session is live a bit has
  requests exactly when it is one of the two (`queue_owner`); after `Close` a bit given up keeps
  its queue with no owner, so a retriever arriving never reads an empty queue (`allocate_lowest`);
* `allocs` counts the retrievers at work, so the graceful shutdown (`allocs == 0`) waits for every
  retrieval handed out (`allocs_busy`).
-/

namespace Go420coin.Bloombits

/-- The distributor's state: per bit, the sections requested and not yet given to a retriever; the
bits waiting for a retriever (`unallocs`, a set); whether it listens for retrievers (`retrievers`
is not nil); and the allocations handed out and not answered (`allocs`). -/
structure Distributor where
  requests : Nat → List Nat
  unallocs : List Nat
  listening : Bool
  allocs : Int

namespace Distributor

def init : Distributor := ⟨fun _ => [], [], false, 0⟩

/-- A section inserted in a queue at the index `sort.Search` finds: the first section not below it. -/
def insertSection (queue : List Nat) (section_ : Nat) : List Nat :=
  let index := Search.search queue.length fun i => decide (section_ ≤ queue.getD i 0)
  queue.take index ++ section_ :: queue.drop index

/-- `assign`: the bit to a retriever waiting for one (`waiting`), returned; otherwise kept in
`unallocs`, listening for retrievers. -/
def assign (d : Distributor) (bit : Nat) (waiting : Bool) : Distributor × Option Nat :=
  if waiting then ({ d with allocs := d.allocs + 1 }, some bit)
  else ({ d with listening := true, unallocs := if bit ∈ d.unallocs then d.unallocs else d.unallocs ++ [bit] }, none)

/-- The `dist` case: the section inserted in its bit's queue, a bit new to the queues assigned. -/
def request (d : Distributor) (bit section_ : Nat) (waiting : Bool) : Distributor × Option Nat :=
  let queue := d.requests bit
  let d' := { d with requests := Function.update d.requests bit (insertSection queue section_) }
  if queue.length = 0 then d'.assign bit waiting else (d', none)

/-- The loop of the `retrievers` case over the bits in `order`: the bit whose first section is the
lowest so far, with that section; `none` for the panic of reading the first section of an empty
queue. -/
def lowestBit (requests : Nat → List Nat) (order : List Nat) (acc : Nat × Nat) : Option (Nat × Nat) :=
  order.foldlM (fun acc idx =>
    match requests idx with
    | [] => none
    | first :: _ => some (if first < acc.2 then (idx, first) else acc)) acc

/-- The `retrievers` case: a retriever gets the bit of `unallocs` whose queue starts lowest, the
map iterated in `order`; the distributor stops listening once `unallocs` is empty. -/
def allocate (d : Distributor) (order : List Nat) : Option (Distributor × Nat) :=
  (lowestBit d.requests order (0, 2 ^ 64 - 1)).map fun p =>
    ({ d with
        unallocs := d.unallocs.erase p.1
        listening := if d.unallocs.erase p.1 = [] then false else d.listening
        allocs := d.allocs + 1 }, p.1)

/-- The `retrievals` case: the first `want` sections of the bit's queue, or all of them when there
are no more, go to the task; the rest, if any, is assigned again. -/
def retrieve (d : Distributor) (bit want : Nat) (waiting : Bool) : (Distributor × Option Nat) × List Nat :=
  let queue := d.requests bit
  let sections := if want ≥ queue.length then queue else queue.take want
  let rest := if want ≥ queue.length then [] else queue.drop want
  let d' := { d with requests := Function.update d.requests bit rest }
  (if rest.length > 0 then d'.assign bit waiting else (d', none), sections)

/-- The sections of a retrieval result whose bitset is empty. -/
def missing (sections : List Nat) (bitsets : List (Option (List UInt8))) : List Nat :=
  ((sections.zip bitsets).filter fun p => (p.2.getD []).length = 0).map Prod.fst

/-- The `deliveries` case: the allocation answered, and the missing sections inserted back in order,
the bit assigned again if they are all its queue (the others go to the bit's scheduler,
`deliverable`). -/
def deliver (d : Distributor) (bit : Nat) (sections : List Nat) (bitsets : List (Option (List UInt8)))
    (waiting : Bool) : Distributor × Option Nat :=
  let missing := missing sections bitsets
  let d' := { d with allocs := d.allocs - 1 }
  if missing.length > 0 then
    let queue := missing.foldl insertSection (d.requests bit)
    let d'' := { d' with requests := Function.update d.requests bit queue }
    if queue.length = missing.length then d''.assign bit waiting else (d'', none)
  else (d', none)

end Distributor

/-- A retriever of the session (`Multiplex`): waiting for a bit, holding one before taking its
sections, or fetching the sections of a bit. -/
inductive Retriever where
  | idle
  | holding (bit : Nat)
  | fetching (bit : Nat) (sections : List Nat)
  deriving DecidableEq, Repr

namespace Retriever

def holds (bit : Nat) : Retriever → Bool
  | holding b => b == bit
  | _ => false

def busy : Retriever → Bool
  | idle => false
  | _ => true

def fetchingOf (bit : Nat) : Retriever → List Nat
  | fetching b sections => if b = bit then sections else []
  | _ => []

end Retriever

/-- The bit `assign` sent, handed to the waiting retriever `w`. -/
def handOut (retrievers : List Retriever) (w : Option Nat) (out : Option Nat) : List Retriever :=
  match w, out with
  | some r, some bit => retrievers.set r (.holding bit)
  | _, _ => retrievers

/-- The distributor and the session's retrievers, with the sections each bit's scheduler sent and
those delivered back to it with bits; whether the session's `quit` channel is closed, and the bits
whose holder gave them up after it (`abandoned`, a ghost list). -/
structure Pool where
  dist : Distributor
  retrievers : List Retriever
  sent : Nat → List Nat
  delivered : Nat → List Nat
  closed : Bool
  abandoned : List Nat

namespace Pool

def init (n : Nat) : Pool := ⟨Distributor.init, List.replicate n .idle, fun _ => [], fun _ => [], false, []⟩

/-- The sections of a bit in the retrievals in flight. -/
def inflight (p : Pool) (bit : Nat) : List Nat := p.retrievers.flatMap (Retriever.fetchingOf bit)

/-- Who answers for a bit's queue: `unallocs`, and the retrievers holding the bit. -/
def owners (p : Pool) (bit : Nat) : Nat :=
  (if bit ∈ p.dist.unallocs then 1 else 0) + p.retrievers.countP (Retriever.holds bit)

end Pool

/-- The events of the distributor's loop and of the retrievers, in any order.  A request carries a
section below `math.MaxUint64`, the start of the search for the lowest queue; a waiting retriever
`w`, when there is one, may take the bit the event assigns. -/
inductive Pool.Step : Pool → Pool → Prop where
  | request {p : Pool} {w : Option Nat} (bit section_ : Nat) (hsec : section_ < 2 ^ 64 - 1)
      (hw : ∀ r ∈ w, p.retrievers[r]? = some .idle) :
      Step p { p with
        dist := (p.dist.request bit section_ w.isSome).1
        retrievers := handOut p.retrievers w (p.dist.request bit section_ w.isSome).2
        sent := Function.update p.sent bit (p.sent bit ++ [section_]) }
  | allocate {p : Pool} {r : Nat} {order : List Nat} {d : Distributor} {bit : Nat}
      (hl : p.dist.listening = true) (hr : p.retrievers[r]? = some .idle) (horder : order.Perm p.dist.unallocs)
      (h : p.dist.allocate order = some (d, bit)) :
      Step p { p with dist := d, retrievers := p.retrievers.set r (.holding bit) }
  | retrieve {p : Pool} {r bit : Nat} {w : Option Nat} (want : Nat) (hr : p.retrievers[r]? = some (.holding bit))
      (hw : ∀ r' ∈ w, p.retrievers[r']? = some .idle) :
      Step p { p with
        dist := (p.dist.retrieve bit want w.isSome).1.1
        retrievers := handOut (p.retrievers.set r (.fetching bit (p.dist.retrieve bit want w.isSome).2)) w
          (p.dist.retrieve bit want w.isSome).1.2 }
  | deliver {p : Pool} {r bit : Nat} {sections : List Nat} {w : Option Nat} (bitsets : List (Option (List UInt8)))
      (hr : p.retrievers[r]? = some (.fetching bit sections)) (hlen : bitsets.length = sections.length)
      (hw : ∀ r' ∈ w, p.retrievers[r']? = some .idle) :
      Step p { p with
        dist := (p.dist.deliver bit sections bitsets w.isSome).1
        retrievers := handOut (p.retrievers.set r .idle) w (p.dist.deliver bit sections bitsets w.isSome).2
        delivered := Function.update p.delivered bit (p.delivered bit ++ (deliverable sections bitsets).map Prod.fst) }
  /-- `MatcherSession.Close` closes `quit`. -/
  | close {p : Pool} : Step p { p with closed := true }
  /-- The `quit` case of `allocateSections`: once `quit` is closed, a retriever holding a bit may get
  no sections without the distributor hearing of it, and go on to deliver nothing; its bit's queue
  is left with no owner. -/
  | giveUp {p : Pool} {r bit : Nat} (hc : p.closed = true) (hr : p.retrievers[r]? = some (.holding bit)) :
      Step p { p with retrievers := p.retrievers.set r (.fetching bit []), abandoned := bit :: p.abandoned }
  /-- The `quit` case of `allocateRetrieval`: once `quit` is closed, a retriever waiting for a bit
  may return from `Multiplex` instead; no bit is handed to it after. -/
  | quitRetrieval {p : Pool} {r : Nat} (hc : p.closed = true) (hr : p.retrievers[r]? = some .idle) :
      Step p { p with retrievers := p.retrievers.eraseIdx r }

/-! ### Replacing one element of a list -/

section Replace

variable {α : Type} {l : List α} {r : Nat} {x y : α}

/-- Replacing the `r`-th element exchanges its image for the new one's, up to order. -/
theorem flatMap_set_perm {β : Type} [DecidableEq β] (f : α → List β) (h : l[r]? = some y) :
    ((l.set r x).flatMap f ++ f y).Perm (l.flatMap f ++ f x) := by
  obtain ⟨hr, rfl⟩ := List.getElem?_eq_some_iff.1 h
  have hl : l = l.take r ++ l[r] :: l.drop (r + 1) := by rw [List.getElem_cons_drop, List.take_append_drop]
  rw [List.set_eq_take_append_cons_drop, if_pos hr]
  conv_rhs => rw [hl]
  rw [List.perm_iff_count]
  intro a
  simp only [List.flatMap_append, List.flatMap_cons, List.count_append]
  omega

/-- Replacing the `r`-th element exchanges its count for the new one's. -/
theorem countP_set_add (p : α → Bool) (h : l[r]? = some y) :
    (l.set r x).countP p + (if p y then 1 else 0) = l.countP p + (if p x then 1 else 0) := by
  obtain ⟨hr, rfl⟩ := List.getElem?_eq_some_iff.1 h
  rw [List.countP_set hr]
  have hle : (if p l[r] then 1 else 0) ≤ l.countP p := by
    split
    · exact List.countP_pos_iff.2 ⟨l[r], List.getElem_mem hr, by assumption⟩
    · exact Nat.zero_le _
  omega

/-- Removing the `r`-th element removes its image, up to order. -/
theorem flatMap_eraseIdx_perm {β : Type} (f : α → List β) (h : l[r]? = some y) :
    ((l.eraseIdx r).flatMap f ++ f y).Perm (l.flatMap f) := by
  obtain ⟨hr, rfl⟩ := List.getElem?_eq_some_iff.1 h
  have hl : l = l.take r ++ l[r] :: l.drop (r + 1) := by rw [List.getElem_cons_drop, List.take_append_drop]
  rw [List.eraseIdx_eq_take_drop_succ]
  conv_rhs => rw [hl]
  simp only [List.flatMap_append, List.flatMap_cons, List.append_assoc]
  exact List.Perm.append_left _ List.perm_append_comm

/-- Removing the `r`-th element removes its count. -/
theorem countP_eraseIdx_add (p : α → Bool) (h : l[r]? = some y) :
    (l.eraseIdx r).countP p + (if p y then 1 else 0) = l.countP p := by
  obtain ⟨hr, rfl⟩ := List.getElem?_eq_some_iff.1 h
  have hl : l = l.take r ++ l[r] :: l.drop (r + 1) := by rw [List.getElem_cons_drop, List.take_append_drop]
  rw [List.eraseIdx_eq_take_drop_succ]
  conv_rhs => rw [hl]
  simp only [List.countP_append, List.countP_cons]
  omega

end Replace

/-! ### The distributor's operations -/

namespace Distributor

theorem insertSection_perm (queue : List Nat) (s : Nat) : (insertSection queue s).Perm (s :: queue) :=
  List.perm_middle.trans (List.Perm.of_eq (by rw [List.take_append_drop]))

theorem insertSection_sorted {queue : List Nat} (hs : queue.Pairwise (· ≤ ·)) (s : Nat) :
    (insertSection queue s).Pairwise (· ≤ ·) :=
  Search.pairwise_insert_search hs s 0

/-- Inserting sections one after another keeps the queue sorted and adds them. -/
theorem foldl_insertSection (missing : List Nat) : ∀ {queue : List Nat}, queue.Pairwise (· ≤ ·) →
    (missing.foldl insertSection queue).Pairwise (· ≤ ·) ∧ (missing.foldl insertSection queue).Perm (missing ++ queue) := by
  induction missing with
  | nil => intro queue hs; exact ⟨hs, List.Perm.refl _⟩
  | cons m missing ih =>
    intro queue hs
    obtain ⟨hsorted, hperm⟩ := ih (insertSection_sorted hs m)
    refine ⟨hsorted, hperm.trans ?_⟩
    exact ((insertSection_perm queue m).append_left missing).trans List.perm_middle

/-- The loop of the `retrievers` case never panics over bits with requests, and ends on the start
or on a bit of `order` with its first section, the lowest of all. -/
theorem lowestBit_spec {requests : Nat → List Nat} : ∀ (order : List Nat) (acc : Nat × Nat),
    (∀ idx ∈ order, requests idx ≠ []) →
    ∃ res, lowestBit requests order acc = some res ∧ res.2 ≤ acc.2 ∧
      (res = acc ∨ res.1 ∈ order ∧ (requests res.1).head? = some res.2) ∧
      ∀ idx ∈ order, ∀ first ∈ (requests idx).head?, res.2 ≤ first
  | [], acc, _ => ⟨acc, rfl, Nat.le_refl _, Or.inl rfl, fun _ h => by cases h⟩
  | idx :: order, acc, hne => by
    obtain ⟨first, rest, hq⟩ := List.exists_cons_of_ne_nil (hne idx List.mem_cons_self)
    -- the bit `idx` replaces the one kept when its first section is lower
    have hstep : lowestBit requests (idx :: order) acc =
        lowestBit requests order (if first < acc.2 then (idx, first) else acc) := by
      unfold lowestBit
      rw [List.foldlM_cons, hq]
      rfl
    have hacc : (if first < acc.2 then (idx, first) else acc).2 ≤ acc.2 ∧
        (if first < acc.2 then (idx, first) else acc).2 ≤ first := by
      split_ifs with h
      · exact ⟨Nat.le_of_lt h, Nat.le_refl _⟩
      · exact ⟨Nat.le_refl _, Nat.le_of_not_lt h⟩
    obtain ⟨res, hres, hle, hwhich, hmin⟩ :=
      lowestBit_spec order (if first < acc.2 then (idx, first) else acc) fun i hi => hne i (List.mem_cons_of_mem idx hi)
    refine ⟨res, hstep.trans hres, Nat.le_trans hle hacc.1, ?_, ?_⟩
    · rcases hwhich with rfl | ⟨hmem, hhead⟩
      · split_ifs with h
        · exact Or.inr ⟨List.mem_cons_self, by rw [hq]; rfl⟩
        · exact Or.inl rfl
      · exact Or.inr ⟨List.mem_cons_of_mem idx hmem, hhead⟩
    · intro i hi f hf
      rcases List.mem_cons.1 hi with rfl | hi
      · rw [hq, List.head?_cons, Option.mem_def, Option.some.injEq] at hf
        exact hf ▸ Nat.le_trans hle hacc.2
      · exact hmin i hi f hf

/-- The sections of a retrieval result split into the missing ones and those delivered. -/
theorem missing_perm {sections : List Nat} {bitsets : List (Option (List UInt8))}
    (hlen : bitsets.length = sections.length) :
    (missing sections bitsets ++ (deliverable sections bitsets).map Prod.fst).Perm sections := by
  have hfilter : (sections.zip bitsets).filter (fun p => (p.2.getD []).length ≠ 0) =
      (sections.zip bitsets).filter (fun p => !decide ((p.2.getD []).length = 0)) :=
    List.filter_congr fun q _ => by simp
  have hsplit := (List.filter_append_perm (fun p : Nat × Option (List UInt8) => decide ((p.2.getD []).length = 0))
    (sections.zip bitsets)).map Prod.fst
  rw [List.map_append, List.map_fst_zip (by omega)] at hsplit
  unfold missing deliverable
  rw [hfilter]
  exact hsplit

end Distributor

/-- The states of a session with `n` retrievers. -/
def Pool.Reachable (n : Nat) (p : Pool) : Prop := Relation.ReflTransGen Pool.Step (Pool.init n) p

/-! ### The invariant -/

namespace Pool

/-- What holds in every reachable state, but for who answers for the queues: the queues are sorted;
for each bit, the sections its scheduler sent are those queued, in flight and delivered; they are
below `math.MaxUint64`; `unallocs` is a set, listened for exactly when not empty; and `allocs`
counts the retrievers at work. -/
structure Sound (p : Pool) : Prop where
  sorted : ∀ bit, (p.dist.requests bit).Pairwise (· ≤ ·)
  conserved : ∀ bit, (p.dist.requests bit ++ p.inflight bit ++ p.delivered bit).Perm (p.sent bit)
  bounded : ∀ bit, ∀ s ∈ p.sent bit, s < 2 ^ 64 - 1
  unallocs_nodup : p.dist.unallocs.Nodup
  listening : p.dist.listening = true ↔ p.dist.unallocs ≠ []
  allocs : p.dist.allocs = p.retrievers.countP Retriever.busy
  live : p.closed = false → p.abandoned = []

/-- A non-empty queue has one owner or was abandoned once, an empty one neither. -/
def Owned (p : Pool) (bit : Nat) : Prop :=
  p.owners bit + p.abandoned.count bit = if p.dist.requests bit = [] then 0 else 1

def Inv (p : Pool) : Prop := p.Sound ∧ ∀ bit, p.Owned bit

/-- Replacing the queue of one bit by a sorted one keeps every queue sorted. -/
theorem sorted_update {requests : Nat → List Nat} (hs : ∀ b, (requests b).Pairwise (· ≤ ·)) {bit : Nat}
    {queue : List Nat} (hq : queue.Pairwise (· ≤ ·)) (b : Nat) :
    (Function.update requests bit queue b).Pairwise (· ≤ ·) := by
  by_cases hb : b = bit
  · subst hb
    rw [Function.update_self]
    exact hq
  · rw [Function.update_of_ne hb]
    exact hs b

theorem not_mem_unallocs {p : Pool} {bit : Nat} (h : p.owners bit = 0) : bit ∉ p.dist.unallocs := by
  intro hmem
  unfold owners at h
  rw [if_pos hmem] at h
  omega

/-! ### A retriever changing state

The retriever `r` takes a bit, takes the bit's sections, or delivers them: the sections in flight,
the holders of each bit and the busy retrievers change by that one retriever's part. -/

theorem set_holding_counts {rs : List Retriever} {r : Nat} (hr : rs[r]? = some .idle) (bit : Nat) :
    (∀ b, ((rs.set r (.holding bit)).flatMap (Retriever.fetchingOf b)).Perm (rs.flatMap (Retriever.fetchingOf b))) ∧
    (∀ b, (rs.set r (.holding bit)).countP (Retriever.holds b) = rs.countP (Retriever.holds b) + if bit = b then 1 else 0) ∧
    (rs.set r (.holding bit)).countP Retriever.busy = rs.countP Retriever.busy + 1 := by
  refine ⟨fun b => ?_, fun b => ?_, ?_⟩
  · have h := flatMap_set_perm (x := .holding bit) (Retriever.fetchingOf b) hr
    simpa only [Retriever.fetchingOf, List.append_nil] using h
  · have h := countP_set_add (Retriever.holds b) (x := .holding bit) hr
    simpa only [Retriever.holds, beq_iff_eq, Bool.false_eq_true, if_false, Nat.add_zero] using h
  · have h := countP_set_add Retriever.busy (x := .holding bit) hr
    simpa only [Retriever.busy, Bool.false_eq_true, if_false, if_true, Nat.add_zero] using h

theorem set_fetching_counts {rs : List Retriever} {r bit : Nat} (hr : rs[r]? = some (.holding bit))
    (sections : List Nat) :
    (∀ b a, ((rs.set r (.fetching bit sections)).flatMap (Retriever.fetchingOf b)).count a =
      (rs.flatMap (Retriever.fetchingOf b)).count a + if bit = b then sections.count a else 0) ∧
    (∀ b, (rs.set r (.fetching bit sections)).countP (Retriever.holds b) + (if bit = b then 1 else 0) =
      rs.countP (Retriever.holds b)) ∧
    (rs.set r (.fetching bit sections)).countP Retriever.busy = rs.countP Retriever.busy := by
  refine ⟨fun b a => ?_, fun b => ?_, ?_⟩
  · have h := (flatMap_set_perm (x := .fetching bit sections) (Retriever.fetchingOf b) hr).count_eq a
    simp only [List.count_append, Retriever.fetchingOf, List.count_nil, Nat.add_zero] at h
    split_ifs at h ⊢ <;> simpa using h
  · have h := countP_set_add (Retriever.holds b) (x := .fetching bit sections) hr
    simpa only [Retriever.holds, beq_iff_eq, Bool.false_eq_true, if_false, Nat.add_zero] using h
  · have h := countP_set_add Retriever.busy (x := .fetching bit sections) hr
    simp only [Retriever.busy, if_true] at h
    omega

/-- The retriever `r`, fetching, delivers and waits again: its sections leave the flight, and it
stays without a bit. -/
theorem set_idle_counts {rs : List Retriever} {r bit : Nat} {sections : List Nat}
    (hr : rs[r]? = some (.fetching bit sections)) :
    (∀ b a, ((rs.set r .idle).flatMap (Retriever.fetchingOf b)).count a + (if bit = b then sections.count a else 0) =
      (rs.flatMap (Retriever.fetchingOf b)).count a) ∧
    (∀ b, (rs.set r .idle).countP (Retriever.holds b) = rs.countP (Retriever.holds b)) ∧
    (rs.set r .idle).countP Retriever.busy + 1 = rs.countP Retriever.busy := by
  refine ⟨fun b a => ?_, fun b => ?_, ?_⟩
  · have h := (flatMap_set_perm (x := .idle) (Retriever.fetchingOf b) hr).count_eq a
    simp only [List.count_append, Retriever.fetchingOf, List.count_nil, Nat.add_zero] at h
    split_ifs at h ⊢ <;> simpa using h
  · have h := countP_set_add (Retriever.holds b) (x := .idle) hr
    simpa only [Retriever.holds, Bool.false_eq_true, if_false, Nat.add_zero] using h
  · have h := countP_set_add Retriever.busy (x := .idle) hr
    simpa only [Retriever.busy, if_true, Bool.false_eq_true, if_false, Nat.add_zero] using h

/-- A bit without owner whose queue is not empty gets one from `assign`: the waiting retriever, or
`unallocs`. -/
theorem inv_assign {d : Distributor} {rs : List Retriever} {sent delivered : Nat → List Nat} {closed : Bool}
    {abandoned : List Nat} {bit : Nat} {w : Option Nat} (hs : (⟨d, rs, sent, delivered, closed, abandoned⟩ : Pool).Sound)
    (hown : ∀ b, b ≠ bit → (⟨d, rs, sent, delivered, closed, abandoned⟩ : Pool).Owned b)
    (h0 : (⟨d, rs, sent, delivered, closed, abandoned⟩ : Pool).owners bit + abandoned.count bit = 0)
    (hne : d.requests bit ≠ []) (hw : ∀ r ∈ w, rs[r]? = some .idle) :
    (⟨(d.assign bit w.isSome).1, handOut rs w (d.assign bit w.isSome).2, sent, delivered, closed, abandoned⟩ :
      Pool).Inv := by
  have hnone : (⟨d, rs, sent, delivered, closed, abandoned⟩ : Pool).owners bit = 0 := by omega
  have hnot : bit ∉ d.unallocs := not_mem_unallocs hnone
  have hcount : rs.countP (Retriever.holds bit) = 0 := by
    have := h0
    simp only [owners, if_neg hnot] at this
    omega
  have hab : abandoned.count bit = 0 := by omega
  cases w with
  | none =>
    -- the bit waits in `unallocs`, and the distributor listens for retrievers
    have hassign : d.assign bit false = ({ d with listening := true, unallocs := d.unallocs ++ [bit] }, none) := by
      unfold Distributor.assign
      rw [if_neg Bool.false_ne_true, if_neg hnot]
    rw [Option.isSome_none, hassign]
    refine ⟨⟨hs.sorted, hs.conserved, hs.bounded, ?_, ?_, hs.allocs, hs.live⟩, fun b => ?_⟩
    · exact List.nodup_append.2 ⟨hs.unallocs_nodup, List.nodup_cons.2 ⟨List.not_mem_nil, List.nodup_nil⟩,
        fun a ha c hc => by rw [List.mem_singleton.1 hc]; exact fun hac => hnot (hac ▸ ha)⟩
    · simp
    · show (if b ∈ d.unallocs ++ [bit] then 1 else 0) + rs.countP (Retriever.holds b) + abandoned.count b =
        if d.requests b = [] then 0 else 1
      by_cases hbit : b = bit
      · subst hbit
        rw [if_pos (List.mem_append_right _ (List.mem_singleton_self b)), if_neg hne, hcount, hab]
      · have := hown b hbit
        simp only [Owned, owners] at this
        simpa only [List.mem_append, List.mem_singleton, hbit, or_false] using this
  | some r =>
    -- the bit goes to the waiting retriever `r`
    obtain ⟨hfly, hholds, hbusy⟩ := set_holding_counts (hw r rfl) bit
    have hassign : d.assign bit true = ({ d with allocs := d.allocs + 1 }, some bit) := by
      unfold Distributor.assign
      rw [if_pos rfl]
    rw [Option.isSome_some, hassign]
    refine ⟨⟨hs.sorted, fun b => ?_, hs.bounded, hs.unallocs_nodup, hs.listening, ?_, hs.live⟩, fun b => ?_⟩
    · show (d.requests b ++ (rs.set r (.holding bit)).flatMap (Retriever.fetchingOf b) ++ delivered b).Perm (sent b)
      exact (((hfly b).append_left _).append_right _).trans (hs.conserved b)
    · show d.allocs + 1 = ((rs.set r (.holding bit)).countP Retriever.busy : Int)
      have := hs.allocs
      simp only at this
      omega
    · show (if b ∈ d.unallocs then 1 else 0) + (rs.set r (.holding bit)).countP (Retriever.holds b) +
        abandoned.count b = if d.requests b = [] then 0 else 1
      rw [hholds b]
      by_cases hbit : b = bit
      · subst hbit
        rw [if_neg hnot, if_neg hne, if_pos rfl, hcount, hab]
      · have := hown b hbit
        simp only [Owned, owners] at this
        rw [if_neg (Ne.symm hbit)]
        omega

theorem insertSection_ne_nil (queue : List Nat) (s : Nat) : Distributor.insertSection queue s ≠ [] :=
  List.ne_nil_of_mem ((Distributor.insertSection_perm queue s).mem_iff.2 List.mem_cons_self)

/-- A request queues its section; a bit new to the queues gets an owner. -/
theorem inv_request {p : Pool} (hp : p.Inv) {w : Option Nat} (bit s : Nat) (hsec : s < 2 ^ 64 - 1)
    (hw : ∀ r ∈ w, p.retrievers[r]? = some .idle) :
    ({ p with
      dist := (p.dist.request bit s w.isSome).1
      retrievers := handOut p.retrievers w (p.dist.request bit s w.isSome).2
      sent := Function.update p.sent bit (p.sent bit ++ [s]) } : Pool).Inv := by
  obtain ⟨hs, hown⟩ := hp
  -- the pool with the section queued, before any assignment
  let d₁ : Distributor :=
    { p.dist with requests := Function.update p.dist.requests bit (Distributor.insertSection (p.dist.requests bit) s) }
  have hs₁ : (⟨d₁, p.retrievers, Function.update p.sent bit (p.sent bit ++ [s]), p.delivered, p.closed, p.abandoned⟩ : Pool).Sound := by
    refine ⟨sorted_update hs.sorted (Distributor.insertSection_sorted (hs.sorted bit) s), fun b => ?_, fun b => ?_,
      hs.unallocs_nodup, hs.listening, hs.allocs, hs.live⟩
    · show (d₁.requests b ++ p.inflight b ++ p.delivered b).Perm (Function.update p.sent bit (p.sent bit ++ [s]) b)
      by_cases hb : b = bit
      · subst hb
        simp only [d₁, Function.update_self]
        have h₁ := (Distributor.insertSection_perm (p.dist.requests b) s).count_eq
        have h₂ := (hs.conserved b).count_eq
        refine List.perm_iff_count.2 fun a => ?_
        have hins := h₁ a
        have hcnt := h₂ a
        simp only [List.count_append, List.count_cons, List.count_nil] at hins hcnt ⊢
        omega
      · simp only [d₁, Function.update_of_ne hb]
        exact hs.conserved b
    · intro x hx
      by_cases hb : b = bit
      · subst hb
        simp only [Function.update_self, List.mem_append, List.mem_singleton] at hx
        rcases hx with hx | rfl
        · exact hs.bounded b x hx
        · exact hsec
      · simp only [Function.update_of_ne hb] at hx
        exact hs.bounded b x hx
  have hown₁ : ∀ b, b ≠ bit → (⟨d₁, p.retrievers, Function.update p.sent bit (p.sent bit ++ [s]), p.delivered, p.closed, p.abandoned⟩ : Pool).Owned b := by
    intro b hb
    have := hown b
    simp only [Owned, owners, d₁, Function.update_of_ne hb] at this ⊢
    exact this
  by_cases hq : p.dist.requests bit = []
  · -- a new queue: the bit gets an owner
    have hreq : p.dist.request bit s w.isSome = d₁.assign bit w.isSome := by
      unfold Distributor.request
      rw [if_pos (by rw [hq]; rfl)]
    rw [hreq]
    have h0 := hown bit
    simp only [Owned, hq, if_true] at h0
    exact inv_assign hs₁ hown₁ h0 (by simp only [d₁, Function.update_self]; exact insertSection_ne_nil _ s) hw
  · -- the queue had an owner already
    have hreq : p.dist.request bit s w.isSome = (d₁, none) := by
      unfold Distributor.request
      rw [if_neg (by rw [List.length_eq_zero_iff]; exact hq)]
    have hret : handOut p.retrievers w none = p.retrievers := by cases w <;> rfl
    rw [hreq]
    refine ⟨by rw [hret]; exact hs₁, fun b => ?_⟩
    by_cases hb : b = bit
    · subst hb
      have := hown b
      simp only [Owned, owners, hq, if_false] at this
      simp only [Owned, owners, hret, d₁, Function.update_self, insertSection_ne_nil, if_false]
      exact this
    · have := hown₁ b hb
      simp only [Owned, owners, hret] at this ⊢
      exact this

/-- A section queued for a bit is one its scheduler sent. -/
theorem Sound.mem_sent {p : Pool} (hs : p.Sound) {bit s : Nat} (h : s ∈ p.dist.requests bit) : s ∈ p.sent bit :=
  (hs.conserved bit).mem_iff.1 (List.mem_append_left _ (List.mem_append_left _ h))

/-- A bit waiting in `unallocs` has requests. -/
theorem ne_nil_of_mem_unallocs {p : Pool} (hown : ∀ bit, p.Owned bit) {bit : Nat} (h : bit ∈ p.dist.unallocs) :
    p.dist.requests bit ≠ [] := by
  intro hnil
  have := hown bit
  simp only [Owned, owners, if_pos h, hnil, if_true] at this
  omega

/-- A retriever arriving while the distributor listens gets a bit of `unallocs` whose queue starts
lowest, however the map is iterated: the loop never reads an empty queue. -/
theorem allocate_spec {p : Pool} (hs : p.Sound) (hown : ∀ bit, p.Owned bit) (hl : p.dist.listening = true)
    {order : List Nat} (horder : order.Perm p.dist.unallocs) :
    ∃ bit first, Distributor.lowestBit p.dist.requests order (0, 2 ^ 64 - 1) = some (bit, first) ∧
      bit ∈ p.dist.unallocs ∧ (p.dist.requests bit).head? = some first ∧
      ∀ b ∈ p.dist.unallocs, ∀ f ∈ (p.dist.requests b).head?, first ≤ f := by
  have hne : ∀ idx ∈ order, p.dist.requests idx ≠ [] := fun idx hi =>
    ne_nil_of_mem_unallocs hown (horder.mem_iff.1 hi)
  obtain ⟨⟨bit, first⟩, hres, -, hwhich, hmin⟩ := Distributor.lowestBit_spec order (0, 2 ^ 64 - 1) hne
  -- some bit waits, and its first section is below the start of the search
  obtain ⟨idx, hidx⟩ := List.exists_mem_of_ne_nil _ (hs.listening.1 hl)
  obtain ⟨f, rest, hf⟩ := List.exists_cons_of_ne_nil (ne_nil_of_mem_unallocs hown hidx)
  have hflt : f < 2 ^ 64 - 1 := hs.bounded idx f (hs.mem_sent (by rw [hf]; exact List.mem_cons_self))
  have hfirst : first ≤ f := hmin idx (horder.mem_iff.2 hidx) f (by rw [hf]; rfl)
  rcases hwhich with heq | ⟨hmem, hhead⟩
  · rw [Prod.mk.injEq] at heq
    omega
  · exact ⟨bit, first, hres, horder.mem_iff.1 hmem, hhead, fun b hb => hmin b (horder.mem_iff.2 hb)⟩

/-- A retriever arriving takes the bit of `unallocs` whose queue starts lowest, and holds it alone. -/
theorem inv_allocate {p : Pool} (hp : p.Inv) {r : Nat} {order : List Nat} {d : Distributor} {bit : Nat}
    (hl : p.dist.listening = true) (hr : p.retrievers[r]? = some .idle) (horder : order.Perm p.dist.unallocs)
    (h : p.dist.allocate order = some (d, bit)) :
    ({ p with dist := d, retrievers := p.retrievers.set r (.holding bit) } : Pool).Inv := by
  obtain ⟨hs, hown⟩ := hp
  obtain ⟨b₀, first, hlow, hmem, -, -⟩ := allocate_spec hs hown hl horder
  have hd : d = { p.dist with
      unallocs := p.dist.unallocs.erase b₀
      listening := if p.dist.unallocs.erase b₀ = [] then false else p.dist.listening
      allocs := p.dist.allocs + 1 } ∧ bit = b₀ := by
    unfold Distributor.allocate at h
    rw [hlow, Option.map_some, Option.some.injEq, Prod.mk.injEq] at h
    exact ⟨h.1.symm, h.2.symm⟩
  obtain ⟨rfl, rfl⟩ := hd
  obtain ⟨hfly, hholds, hbusy⟩ := set_holding_counts hr bit
  -- the bit was waiting in `unallocs`: no retriever held it, and it was never abandoned
  have hone := hown bit
  simp only [Owned, owners, if_pos hmem, ne_nil_of_mem_unallocs hown hmem, if_false] at hone
  refine ⟨⟨hs.sorted, fun b => ?_, hs.bounded, hs.unallocs_nodup.erase bit, ?_, ?_, hs.live⟩, fun b => ?_⟩
  · exact (((hfly b).append_left _).append_right _).trans (hs.conserved b)
  · show (if p.dist.unallocs.erase bit = [] then false else p.dist.listening) = true ↔ p.dist.unallocs.erase bit ≠ []
    split_ifs with hempty
    · simp [hempty]
    · simp [hl, hempty]
  · show p.dist.allocs + 1 = ((p.retrievers.set r (.holding bit)).countP Retriever.busy : Int)
    have := hs.allocs
    omega
  · show (if b ∈ p.dist.unallocs.erase bit then 1 else 0) + (p.retrievers.set r (.holding bit)).countP (Retriever.holds b) +
      p.abandoned.count b = if p.dist.requests b = [] then 0 else 1
    rw [hholds b]
    by_cases hbit : b = bit
    · subst hbit
      rw [if_neg (hs.unallocs_nodup.not_mem_erase), if_neg (ne_nil_of_mem_unallocs hown hmem), if_pos rfl]
      omega
    · have := hown b
      simp only [Owned, owners] at this
      rw [if_neg (Ne.symm hbit)]
      simp only [List.mem_erase_of_ne hbit]
      omega

/-- A retriever other than a busy one is still waiting after the busy one changes. -/
theorem idle_set {rs : List Retriever} {r r' : Nat} {y x : Retriever} (hr : rs[r]? = some y) (hy : y ≠ .idle)
    (hr' : rs[r']? = some .idle) : (rs.set r x)[r']? = some .idle := by
  have hne : r ≠ r' := fun h => hy (Option.some.inj (hr.symm.trans (h ▸ hr')))
  rw [List.getElem?_set_ne hne]
  exact hr'

/-- A retriever holding a bit takes the first sections of its queue; what is left is assigned
again. -/
theorem inv_retrieve {p : Pool} (hp : p.Inv) {r bit : Nat} {w : Option Nat} (want : Nat)
    (hr : p.retrievers[r]? = some (.holding bit)) (hw : ∀ r' ∈ w, p.retrievers[r']? = some .idle) :
    ({ p with
      dist := (p.dist.retrieve bit want w.isSome).1.1
      retrievers := handOut (p.retrievers.set r (.fetching bit (p.dist.retrieve bit want w.isSome).2)) w
        (p.dist.retrieve bit want w.isSome).1.2 } : Pool).Inv := by
  obtain ⟨hs, hown⟩ := hp
  -- the sections taken and the rest of the queue
  let queue := p.dist.requests bit
  let sections := if want ≥ queue.length then queue else queue.take want
  let rest := if want ≥ queue.length then [] else queue.drop want
  have hsplit : sections ++ rest = queue := by
    simp only [sections, rest]
    split_ifs
    · exact List.append_nil queue
    · exact List.take_append_drop want queue
  have hrest_sorted : rest.Pairwise (· ≤ ·) := by
    simp only [rest]
    split_ifs
    · exact List.Pairwise.nil
    · exact (hs.sorted bit).sublist (List.drop_sublist want queue)
  let d₁ : Distributor := { p.dist with requests := Function.update p.dist.requests bit rest }
  let rs₁ := p.retrievers.set r (.fetching bit sections)
  have hret : p.dist.retrieve bit want w.isSome =
      ((if rest.length > 0 then d₁.assign bit w.isSome else (d₁, none)), sections) := rfl
  -- `r` was the one owner of the bit
  obtain ⟨hfly, hholds, hbusy⟩ := set_fetching_counts hr sections
  have h1 := hholds bit
  rw [if_pos rfl] at h1
  have h2 := hown bit
  simp only [Owned, owners] at h2
  have hnot : bit ∉ p.dist.unallocs := by
    intro hmem
    rw [if_pos hmem] at h2
    split_ifs at h2 <;> omega
  have hs₁ : (⟨d₁, rs₁, p.sent, p.delivered, p.closed, p.abandoned⟩ : Pool).Sound := by
    refine ⟨sorted_update hs.sorted hrest_sorted, fun b => ?_, hs.bounded, hs.unallocs_nodup, hs.listening, ?_,
      hs.live⟩
    · show (d₁.requests b ++ rs₁.flatMap (Retriever.fetchingOf b) ++ p.delivered b).Perm (p.sent b)
      refine List.perm_iff_count.2 fun a => ?_
      have hb_fly := hfly b a
      have hcnt := (hs.conserved b).count_eq a
      simp only [List.count_append, inflight] at hcnt
      by_cases hb : b = bit
      · subst hb
        -- the sections taken and the rest make up the queue
        have hq := congrArg (List.count a) hsplit
        simp only [↓reduceIte] at hb_fly
        simp only [List.count_append, queue] at hq
        simp only [d₁, rs₁, Function.update_self, List.count_append]
        omega
      · simp only [if_neg (Ne.symm hb), Nat.add_zero] at hb_fly
        simp only [d₁, rs₁, Function.update_of_ne hb, List.count_append]
        omega
    · show p.dist.allocs = ((p.retrievers.set r (.fetching bit sections)).countP Retriever.busy : Int)
      have := hs.allocs
      omega
  have hown₁ : ∀ b, b ≠ bit → (⟨d₁, rs₁, p.sent, p.delivered, p.closed, p.abandoned⟩ : Pool).Owned b := by
    intro b hb
    have h1 := hholds b
    rw [if_neg (Ne.symm hb), Nat.add_zero] at h1
    have h2 := hown b
    simp only [Owned, owners] at h2 ⊢
    simp only [d₁, rs₁, Function.update_of_ne hb]
    omega
  have h0 : (⟨d₁, rs₁, p.sent, p.delivered, p.closed, p.abandoned⟩ : Pool).owners bit + p.abandoned.count bit = 0 := by
    show (if bit ∈ p.dist.unallocs then 1 else 0) + (p.retrievers.set r (.fetching bit sections)).countP (Retriever.holds bit) +
      p.abandoned.count bit = 0
    rw [if_neg hnot]
    rw [if_neg hnot] at h2
    split_ifs at h2 <;> omega
  rw [hret]
  by_cases hlen : rest.length > 0
  · -- the rest is assigned again
    simp only [if_pos hlen]
    exact inv_assign hs₁ hown₁ h0 (by simp only [d₁, Function.update_self]; exact List.ne_nil_of_length_pos hlen)
      fun r' hr' => idle_set hr (by simp) (hw r' hr')
  · -- the task took the whole queue
    have hnil : rest = [] := List.eq_nil_of_length_eq_zero (by omega)
    have hout : handOut rs₁ w none = rs₁ := by cases w <;> rfl
    simp only [if_neg hlen]
    show (⟨d₁, handOut rs₁ w none, p.sent, p.delivered, p.closed, p.abandoned⟩ : Pool).Inv
    rw [hout]
    refine ⟨hs₁, fun b => ?_⟩
    by_cases hb : b = bit
    · subst hb
      show (⟨d₁, rs₁, p.sent, p.delivered, p.closed, p.abandoned⟩ : Pool).owners b + p.abandoned.count b =
        if d₁.requests b = [] then 0 else 1
      rw [h0]
      simp only [d₁, Function.update_self, hnil, if_true]
    · exact hown₁ b hb

/-- A retriever delivers its sections: those found go to the scheduler, the missing ones back in
their queue, and the bit, if its queue was empty, gets an owner again. -/
theorem inv_deliver {p : Pool} (hp : p.Inv) {r bit : Nat} {sections : List Nat} {w : Option Nat}
    (bitsets : List (Option (List UInt8))) (hr : p.retrievers[r]? = some (.fetching bit sections))
    (hlen : bitsets.length = sections.length) (hw : ∀ r' ∈ w, p.retrievers[r']? = some .idle) :
    ({ p with
      dist := (p.dist.deliver bit sections bitsets w.isSome).1
      retrievers := handOut (p.retrievers.set r .idle) w (p.dist.deliver bit sections bitsets w.isSome).2
      delivered := Function.update p.delivered bit
        (p.delivered bit ++ (deliverable sections bitsets).map Prod.fst) } : Pool).Inv := by
  obtain ⟨hs, hown⟩ := hp
  obtain ⟨hfly, hholds, hbusy⟩ := set_idle_counts hr
  have hsplit := Distributor.missing_perm hlen
  obtain ⟨hq_sorted, hq_perm⟩ :=
    Distributor.foldl_insertSection (Distributor.missing sections bitsets) (hs.sorted bit)
  unfold Distributor.deliver
  dsimp only
  -- the missing sections, and the queue with them back in it
  generalize Distributor.missing sections bitsets = missing at hsplit hq_sorted hq_perm ⊢
  generalize hqdef : missing.foldl Distributor.insertSection (p.dist.requests bit) = queue at hq_sorted hq_perm ⊢
  have hq_len : queue.length = missing.length + (p.dist.requests bit).length := by
    rw [hq_perm.length_eq, List.length_append]
  let d₁ : Distributor :=
    { p.dist with allocs := p.dist.allocs - 1, requests := Function.update p.dist.requests bit queue }
  let rs₁ := p.retrievers.set r .idle
  let del₁ := Function.update p.delivered bit (p.delivered bit ++ (deliverable sections bitsets).map Prod.fst)
  have hs₁ : (⟨d₁, rs₁, p.sent, del₁, p.closed, p.abandoned⟩ : Pool).Sound := by
    refine ⟨sorted_update hs.sorted hq_sorted, fun b => ?_, hs.bounded, hs.unallocs_nodup, hs.listening, ?_, hs.live⟩
    · show (d₁.requests b ++ rs₁.flatMap (Retriever.fetchingOf b) ++ del₁ b).Perm (p.sent b)
      refine List.perm_iff_count.2 fun a => ?_
      have hcnt := (hs.conserved b).count_eq a
      have hb_fly := hfly b a
      simp only [List.count_append, inflight] at hcnt
      by_cases hb : b = bit
      · subst hb
        -- the sections delivered and the missing ones are those of the retrieval
        have hq := hq_perm.count_eq a
        have hsec := hsplit.count_eq a
        simp only [List.count_append] at hq hsec
        simp only [↓reduceIte] at hb_fly
        simp only [d₁, rs₁, del₁, Function.update_self, List.count_append]
        omega
      · simp only [if_neg (Ne.symm hb), Nat.add_zero] at hb_fly
        simp only [d₁, rs₁, del₁, Function.update_of_ne hb, List.count_append]
        omega
    · show p.dist.allocs - 1 = ((p.retrievers.set r .idle).countP Retriever.busy : Int)
      have := hs.allocs
      omega
  have howners : ∀ b, (⟨d₁, rs₁, p.sent, del₁, p.closed, p.abandoned⟩ : Pool).owners b = p.owners b := fun b => by
    simp only [owners, d₁, rs₁, hholds b]
  have hown₁ : ∀ b, b ≠ bit → (⟨d₁, rs₁, p.sent, del₁, p.closed, p.abandoned⟩ : Pool).Owned b := fun b hb => by
    have := hown b
    simp only [Owned, howners b] at this ⊢
    simpa only [d₁, Function.update_of_ne hb] using this
  -- without a new assignment, the pool keeps every owner
  have hkeep : (queue = [] ↔ p.dist.requests bit = []) → (⟨d₁, rs₁, p.sent, del₁, p.closed, p.abandoned⟩ : Pool).Inv := fun hiff => by
    refine ⟨hs₁, fun b => ?_⟩
    by_cases hb : b = bit
    · subst hb
      have := hown b
      simp only [Owned, howners b] at this ⊢
      simpa only [d₁, Function.update_self, hiff] using this
    · exact hown₁ b hb
  have hout : handOut rs₁ w none = rs₁ := by cases w <;> rfl
  split_ifs with hm hq
  · -- the queue was empty: the bit is assigned again
    have hnil : p.dist.requests bit = [] := by
      rw [← List.length_eq_zero_iff]
      omega
    have h0 := hown bit
    simp only [Owned, hnil, if_true] at h0
    have hne : d₁.requests bit ≠ [] := by
      simp only [d₁, Function.update_self]
      exact List.ne_nil_of_length_pos (by omega)
    exact inv_assign hs₁ hown₁ (by rw [howners bit]; exact h0) hne fun r' hr' => idle_set hr (by simp) (hw r' hr')
  · -- the queue had an owner already
    have hne : p.dist.requests bit ≠ [] := fun hnil => hq (by rw [hq_len, hnil, List.length_nil, Nat.add_zero])
    have hqne : queue ≠ [] := List.ne_nil_of_length_pos (by omega)
    show (⟨d₁, handOut rs₁ w none, p.sent, del₁, p.closed, p.abandoned⟩ : Pool).Inv
    rw [hout]
    exact hkeep (iff_of_false hqne hne)
  · -- nothing missing: the queues are as they were
    have hnil : missing = [] := List.eq_nil_of_length_eq_zero (by omega)
    have hq : queue = p.dist.requests bit := by rw [← hqdef, hnil, List.foldl_nil]
    have hd : ({ p.dist with allocs := p.dist.allocs - 1 } : Distributor) = d₁ := by
      simp only [d₁, hq, Function.update_eq_self]
    show (⟨{ p.dist with allocs := p.dist.allocs - 1 }, handOut rs₁ w none, p.sent, del₁, p.closed, p.abandoned⟩ :
      Pool).Inv
    rw [hout, hd]
    exact hkeep (by rw [hq])

/-- Closing `quit` changes no queue and no retriever. -/
theorem inv_close {p : Pool} (hp : p.Inv) : ({ p with closed := true } : Pool).Inv :=
  ⟨⟨hp.1.sorted, hp.1.conserved, hp.1.bounded, hp.1.unallocs_nodup, hp.1.listening, hp.1.allocs,
    fun h => by simp at h⟩, hp.2⟩

/-- A retriever gives its bit up after `quit`: it fetches nothing, and the bit's queue, which it alone
owned, is abandoned. -/
theorem inv_giveUp {p : Pool} (hp : p.Inv) {r bit : Nat} (hc : p.closed = true)
    (hr : p.retrievers[r]? = some (.holding bit)) :
    ({ p with retrievers := p.retrievers.set r (.fetching bit []), abandoned := bit :: p.abandoned } : Pool).Inv := by
  obtain ⟨hs, hown⟩ := hp
  obtain ⟨hfly, hholds, hbusy⟩ := set_fetching_counts hr []
  refine ⟨⟨hs.sorted, fun b => ?_, hs.bounded, hs.unallocs_nodup, hs.listening, ?_, ?_⟩, fun b => ?_⟩
  · show (p.dist.requests b ++ (p.retrievers.set r (.fetching bit [])).flatMap (Retriever.fetchingOf b) ++
      p.delivered b).Perm (p.sent b)
    -- the retriever fetches no section, so the sections in flight are those before
    refine List.perm_iff_count.2 fun a => ?_
    have hcnt := (hs.conserved b).count_eq a
    have hb_fly := hfly b a
    simp only [List.count_nil, ite_self, Nat.add_zero] at hb_fly
    simp only [List.count_append, inflight] at hcnt ⊢
    omega
  · show p.dist.allocs = ((p.retrievers.set r (.fetching bit [])).countP Retriever.busy : Int)
    rw [hbusy]
    exact hs.allocs
  · show p.closed = false → bit :: p.abandoned = []
    rw [hc]
    exact fun h => absurd h (by decide)
  · show (if b ∈ p.dist.unallocs then 1 else 0) + (p.retrievers.set r (.fetching bit [])).countP (Retriever.holds b) +
      (bit :: p.abandoned).count b = if p.dist.requests b = [] then 0 else 1
    have h1 := hholds b
    have h2 := hown b
    simp only [Owned, owners] at h2
    simp only [List.count_cons, beq_iff_eq]
    -- the holder's share of the bit moves to `abandoned`
    by_cases hb : bit = b
    · rw [if_pos hb] at h1 ⊢
      omega
    · rw [if_neg hb] at h1 ⊢
      omega

/-- A waiting retriever leaves: it held no bit and fetched nothing, so no count changes. -/
theorem inv_quitRetrieval {p : Pool} (hp : p.Inv) {r : Nat} (hr : p.retrievers[r]? = some .idle) :
    ({ p with retrievers := p.retrievers.eraseIdx r } : Pool).Inv := by
  obtain ⟨hs, hown⟩ := hp
  have hfly (b : Nat) : ((p.retrievers.eraseIdx r).flatMap (Retriever.fetchingOf b)).Perm (p.inflight b) := by
    simpa only [Retriever.fetchingOf, List.append_nil, inflight] using flatMap_eraseIdx_perm (Retriever.fetchingOf b) hr
  have hholds (b : Nat) : (p.retrievers.eraseIdx r).countP (Retriever.holds b) = p.retrievers.countP (Retriever.holds b) := by
    simpa only [Retriever.holds, Bool.false_eq_true, if_false, Nat.add_zero] using
      countP_eraseIdx_add (Retriever.holds b) hr
  have hbusy : (p.retrievers.eraseIdx r).countP Retriever.busy = p.retrievers.countP Retriever.busy := by
    simpa only [Retriever.busy, Bool.false_eq_true, if_false, Nat.add_zero] using countP_eraseIdx_add Retriever.busy hr
  refine ⟨⟨hs.sorted, fun b => ?_, hs.bounded, hs.unallocs_nodup, hs.listening, ?_, hs.live⟩, fun b => ?_⟩
  · exact (((hfly b).append_left _).append_right _).trans (hs.conserved b)
  · show p.dist.allocs = ((p.retrievers.eraseIdx r).countP Retriever.busy : Int)
    rw [hbusy]
    exact hs.allocs
  · show (if b ∈ p.dist.unallocs then 1 else 0) + (p.retrievers.eraseIdx r).countP (Retriever.holds b) +
      p.abandoned.count b = if p.dist.requests b = [] then 0 else 1
    rw [hholds b]
    exact hown b

theorem inv_init (n : Nat) : (init n).Inv := by
  refine ⟨⟨fun _ => List.Pairwise.nil, fun bit => ?_, (fun _ _ h => by cases h), List.nodup_nil, ?_, ?_,
    fun _ => rfl⟩, fun bit => ?_⟩
  · simp [init, inflight, Distributor.init, Retriever.fetchingOf]
  · simp [init, Distributor.init]
  · simp [init, Distributor.init, List.countP_replicate, Retriever.busy]
  · simp [Owned, owners, init, Distributor.init, Retriever.holds]

theorem inv_step {p q : Pool} (hp : p.Inv) (h : Step p q) : q.Inv := by
  cases h with
  | request bit s hsec hw => exact inv_request hp bit s hsec hw
  | allocate hl hr horder h => exact inv_allocate hp hl hr horder h
  | retrieve want hr hw => exact inv_retrieve hp want hr hw
  | deliver bitsets hr hlen hw => exact inv_deliver hp bitsets hr hlen hw
  | close => exact inv_close hp
  | giveUp hc hr => exact inv_giveUp hp hc hr
  | quitRetrieval _ hr => exact inv_quitRetrieval hp hr

end Pool

theorem Pool.reachable_inv {n : Nat} {p : Pool} (h : p.Reachable n) : p.Inv := by
  induction h with
  | refl => exact Pool.inv_init n
  | tail _ hstep ih => exact Pool.inv_step ih hstep

/-! ### What holds in every reachable state -/

/-- Sections 7 and then 2 of bit 3 requested, no retriever waiting: the bit waits in `unallocs`. -/
def sampleQueued : Pool :=
  let p : Pool := { Pool.init 1 with
    dist := ((Pool.init 1).dist.request 3 7 false).1
    sent := Function.update (Pool.init 1).sent 3 [7] }
  { p with dist := (p.dist.request 3 2 false).1, sent := Function.update p.sent 3 (p.sent 3 ++ [2]) }

/-- The one retriever arrives and takes bit 3. -/
def sampleHeld : Pool := { sampleQueued with
  dist := { sampleQueued.dist with unallocs := [], listening := false, allocs := 1 }
  retrievers := sampleQueued.retrievers.set 0 (.holding 3) }

/-- It takes the first section of bit 3. -/
def sampleFetching : Pool := { sampleHeld with
  dist := (sampleHeld.dist.retrieve 3 1 false).1.1
  retrievers := sampleHeld.retrievers.set 0 (.fetching 3 (sampleHeld.dist.retrieve 3 1 false).2) }

theorem reachable_sampleQueued : sampleQueued.Reachable 1 :=
  .tail (.tail .refl (Pool.Step.request (w := none) 3 7 (by decide) fun _ h => by cases h))
    (Pool.Step.request (w := none) 3 2 (by decide) fun _ h => by cases h)

theorem reachable_sampleHeld : sampleHeld.Reachable 1 :=
  .tail reachable_sampleQueued
    (Pool.Step.allocate rfl rfl (show [3].Perm sampleQueued.dist.unallocs by decide) rfl)

theorem reachable_sampleFetching : sampleFetching.Reachable 1 :=
  .tail reachable_sampleHeld
    (Pool.Step.retrieve (w := none) 1 (show sampleHeld.retrievers[0]? = some (.holding 3) from rfl) fun _ h => by cases h)

/-- Section 2 went to the retriever; section 7 waits, and bit 3 waits for another retriever. -/
example : sampleFetching.dist.requests 3 = [7] ∧ sampleFetching.retrievers = [.fetching 3 [2]] ∧
    sampleFetching.dist.unallocs = [3] ∧ sampleFetching.dist.allocs = 1 := by
  decide

/-- **No section lost or duplicated.**  In every reachable state, each bit's queue is sorted, and the
sections its scheduler sent are, counted with multiplicity, those still queued, those in flight to
the retrievers and those delivered back to it. -/
theorem sections_conserved {n : Nat} {p : Pool} (h : p.Reachable n) (bit : Nat) :
    (p.dist.requests bit).Pairwise (· ≤ ·) ∧
      (p.dist.requests bit ++ p.inflight bit ++ p.delivered bit).Perm (p.sent bit) :=
  ⟨(Pool.reachable_inv h).1.sorted bit, (Pool.reachable_inv h).1.conserved bit⟩

theorem sections_conserved_sample :
    sampleFetching.Reachable 1 ∧ (sampleFetching.dist.requests 3).Pairwise (· ≤ ·) ∧
      (sampleFetching.dist.requests 3 ++ sampleFetching.inflight 3 ++ sampleFetching.delivered 3).Perm
        (sampleFetching.sent 3) :=
  ⟨reachable_sampleFetching, sections_conserved reachable_sampleFetching 3⟩

/-- **One owner per queue.**  In every reachable state, a bit is never both waiting in `unallocs` and
held, nor held by two retrievers, and a bit without requests is neither; while the session is live
(`quit` not closed), a bit with requests is one of the two. -/
theorem queue_owner {n : Nat} {p : Pool} (h : p.Reachable n) (bit : Nat) :
    (if bit ∈ p.dist.unallocs then 1 else 0) + p.retrievers.countP (Retriever.holds bit) ≤
        (if p.dist.requests bit = [] then 0 else 1) ∧
      (p.closed = false → (if bit ∈ p.dist.unallocs then 1 else 0) + p.retrievers.countP (Retriever.holds bit) =
        if p.dist.requests bit = [] then 0 else 1) := by
  obtain ⟨hs, hown⟩ := Pool.reachable_inv h
  have hbit := hown bit
  simp only [Pool.Owned, Pool.owners] at hbit
  refine ⟨by omega, fun hlive => ?_⟩
  -- a live session has abandoned no bit
  rw [hs.live hlive, List.count_nil, Nat.add_zero] at hbit
  exact hbit

theorem queue_owner_sample :
    sampleHeld.Reachable 1 ∧
      ((if 3 ∈ sampleHeld.dist.unallocs then 1 else 0) + sampleHeld.retrievers.countP (Retriever.holds 3) ≤
          (if sampleHeld.dist.requests 3 = [] then 0 else 1) ∧
        (sampleHeld.closed = false →
          (if 3 ∈ sampleHeld.dist.unallocs then 1 else 0) + sampleHeld.retrievers.countP (Retriever.holds 3) =
            if sampleHeld.dist.requests 3 = [] then 0 else 1)) :=
  ⟨reachable_sampleHeld, queue_owner reachable_sampleHeld 3⟩

/-- The session is closed and the retriever holding bit 3 gives it up. -/
def sampleAbandoned : Pool := { sampleHeld with
  closed := true
  retrievers := sampleHeld.retrievers.set 0 (.fetching 3 [])
  abandoned := [3] }

theorem reachable_sampleAbandoned : sampleAbandoned.Reachable 1 :=
  .tail (.tail reachable_sampleHeld Pool.Step.close)
    (Pool.Step.giveUp (r := 0) rfl (show sampleHeld.retrievers[0]? = some (.holding 3) from rfl))

/-- After `quit`, the queue of bit 3 is left with no owner. -/
example : sampleAbandoned.dist.requests 3 = [2, 7] ∧ sampleAbandoned.owners 3 = 0 := by
  decide

/-- **A retriever arriving is served.**  In every reachable state where the distributor listens for
retrievers, some bit waits in `unallocs`, and the loop over them, in any order of the map, reads no
empty queue and hands out a waiting bit whose queue starts lowest. -/
theorem allocate_lowest {n : Nat} {p : Pool} (h : p.Reachable n) (hl : p.dist.listening = true)
    {order : List Nat} (horder : order.Perm p.dist.unallocs) :
    p.dist.unallocs ≠ [] ∧ ∃ d bit first, p.dist.allocate order = some (d, bit) ∧ bit ∈ p.dist.unallocs ∧
      (p.dist.requests bit).head? = some first ∧
      ∀ b ∈ p.dist.unallocs, ∀ f ∈ (p.dist.requests b).head?, first ≤ f := by
  have hp := Pool.reachable_inv h
  obtain ⟨bit, first, hlow, hmem, hhead, hmin⟩ := Pool.allocate_spec hp.1 hp.2 hl horder
  obtain ⟨d, hd⟩ : ∃ d, p.dist.allocate order = some (d, bit) := ⟨_, by
    unfold Distributor.allocate
    rw [hlow, Option.map_some]⟩
  exact ⟨hp.1.listening.1 hl, d, bit, first, hd, hmem, hhead, hmin⟩

theorem allocate_lowest_sample :
    sampleQueued.Reachable 1 ∧ sampleQueued.dist.listening = true ∧ [3].Perm sampleQueued.dist.unallocs ∧
      sampleQueued.dist.unallocs ≠ [] ∧ ∃ d bit first, sampleQueued.dist.allocate [3] = some (d, bit) ∧
        bit ∈ sampleQueued.dist.unallocs ∧ (sampleQueued.dist.requests bit).head? = some first ∧
        ∀ b ∈ sampleQueued.dist.unallocs, ∀ f ∈ (sampleQueued.dist.requests b).head?, first ≤ f :=
  ⟨reachable_sampleQueued, rfl, by decide, allocate_lowest reachable_sampleQueued rfl (by decide)⟩

/-- **Graceful shutdown waits for every retrieval.**  In every reachable state, `allocs` counts the
retrievers holding or fetching a bit, so the distributor's `allocs == 0` holds exactly when every
retriever waits for a new bit. -/
theorem allocs_busy {n : Nat} {p : Pool} (h : p.Reachable n) :
    p.dist.allocs = p.retrievers.countP Retriever.busy ∧ (p.dist.allocs = 0 ↔ ∀ x ∈ p.retrievers, x = .idle) := by
  have hallocs := (Pool.reachable_inv h).1.allocs
  refine ⟨hallocs, ?_⟩
  rw [hallocs, Int.natCast_eq_zero, List.countP_eq_zero]
  refine forall₂_congr fun x _ => ?_
  cases x <;> simp [Retriever.busy]

theorem allocs_busy_sample :
    sampleFetching.Reachable 1 ∧ sampleFetching.dist.allocs = sampleFetching.retrievers.countP Retriever.busy ∧
      (sampleFetching.dist.allocs = 0 ↔ ∀ x ∈ sampleFetching.retrievers, x = .idle) :=
  ⟨reachable_sampleFetching, allocs_busy reachable_sampleFetching⟩

end Go420coin.Bloombits
