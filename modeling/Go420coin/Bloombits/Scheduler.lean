import Mathlib.Logic.Relation
import Go420coin.Lib.Loop

/-!
# The retrieval scheduler of a bloom bit (`core/bloombits/scheduler.go`)

A scheduler serves the retrievals of one bloom bit to every sub-matcher that needs it.  Each run
reads section numbers, sends each section not requested yet to the session's distributor, and
returns the section's bit vector once it is delivered, in the order it read the sections.  The
responses are shared by all runs, so that a section is retrieved once however many runs ask for it,
and a delivery is cached: the first one wins.

A `Session` is the scheduler with its concurrent runs and the requests it sent to the distributor;
every interleaving of their steps is a path of `Step`, from the scheduler's creation and across any
number of sessions (`Matcher.Start` resets the scheduler).  Every reachable state satisfies
`Session.Inv`, and from it:
* no step panics: a delivery never closes a closed channel nor reads past its data, and a run waits
  only on sections that have a response (`deliver_never_panics`);
* each run has returned the cached bits of the sections it read, in order (`run_out_cached`);
* no section is sent to the distributor twice in a session, and every response still waiting has
  been sent (`dist_nodup_waiting`);
and the bits cached for a section never change, whatever the steps (`cached_of_steps`).
-/

namespace Go420coin.Bloombits

/-- `response`: the cached bits (`none` for a nil slice) and whether `done` is closed. -/
structure Response where
  cached : Option (List UInt8)
  done : Bool
  deriving DecidableEq, Repr

/-- `scheduler`: the bit it serves and the responses by section, pending or cached (`none` for a
missing key). -/
structure Scheduler where
  bit : Nat
  responses : Nat → Option Response

def newScheduler (idx : Nat) : Scheduler := ⟨idx, fun _ => none⟩

namespace Scheduler

/-- `reset`: the responses never delivered are dropped. -/
def reset (s : Scheduler) : Scheduler :=
  { s with
    responses := fun section_ =>
      match s.responses section_ with
      | some res => if res.cached = none then none else some res
      | none => none }

/-- The loop of `scheduleRequests` on one section: a response is made for a section without one,
and only then is the section `unique`, to be sent to the distributor. -/
def scheduleRequest (s : Scheduler) (section_ : Nat) : Scheduler × Bool :=
  match s.responses section_ with
  | none => ({ s with responses := Function.update s.responses section_ (some ⟨none, false⟩) }, true)
  | some _ => (s, false)

/-- What `scheduleDeliveries` finds for a section: `done` still open, or the bits to send. -/
inductive Delivery where
  | waiting
  | ready (data : Option (List UInt8))
  deriving DecidableEq, Repr

/-- The loop of `scheduleDeliveries` on section `idx`: the response read under the lock (`none`
for the panic of waiting on a nil response's `done`), and its bits once `done` is closed. -/
def awaitDelivery (s : Scheduler) (idx : Nat) : Option Delivery :=
  match s.responses idx with
  | none => none
  | some res => if res.done then some (.ready res.cached) else some .waiting

/-- The loop of `deliver` on the `i`-th section: a response not cached yet takes `data[i]` and has
its `done` closed; `none` is a panic (`data[i]` out of range, or `done` closed twice). -/
def deliverOne (data : List (Option (List UInt8))) (s : Scheduler) (p : Nat × Nat) : Option Scheduler :=
  match s.responses p.1 with
  | some res =>
    if res.cached = none then
      match data[p.2]? with
      | none => none
      | some d =>
        if res.done then none
        else some { s with responses := Function.update s.responses p.1 (some ⟨d, true⟩) }
    else some s
  | none => some s

/-- `deliver`. -/
def deliver (s : Scheduler) (sections : List Nat) (data : List (Option (List UInt8))) : Option Scheduler :=
  sections.zipIdx.foldlM (deliverOne data) s

/-- The bits cached for a section: nil without a response or before its delivery. -/
def cached (s : Scheduler) (section_ : Nat) : Option (List UInt8) :=
  (s.responses section_).bind Response.cached

/-- A response has its `done` closed exactly when it holds bits. -/
def DoneIff (s : Scheduler) : Prop :=
  ∀ sec res, s.responses sec = some res → (res.done = true ↔ res.cached ≠ none)

/-- `s'` is `s` where some responses that were waiting took bits of `data` and closed `done`. -/
def Delivered (data : List (Option (List UInt8))) (s s' : Scheduler) : Prop :=
  ∀ sec, s'.responses sec = s.responses sec ∨
    ∃ res, s.responses sec = some res ∧ res.cached = none ∧ ∃ d ∈ data, s'.responses sec = some ⟨d, true⟩

/-! ### One call -/

variable {s s' : Scheduler} {data : List (Option (List UInt8))}

theorem reset_eq_some {sec : Nat} {res : Response} :
    s.reset.responses sec = some res ↔ s.responses sec = some res ∧ res.cached ≠ none := by
  unfold reset
  dsimp only
  cases h : s.responses sec with
  | none => simp
  | some res' =>
    by_cases hc : res'.cached = none
    · simp only [if_pos hc, reduceCtorEq, false_iff, not_and, not_not, Option.some.injEq]
      rintro rfl
      exact hc
    · simp only [if_neg hc, Option.some.injEq]
      constructor
      · rintro rfl
        exact ⟨rfl, hc⟩
      · rintro ⟨rfl, -⟩
        rfl

/-- `reset` drops only responses without bits, so the cached bits stay. -/
theorem cached_reset (s : Scheduler) : s.reset.cached = s.cached := by
  funext sec
  unfold cached reset
  dsimp only
  cases h : s.responses sec with
  | none => rfl
  | some res =>
    by_cases hc : res.cached = none
    · simp [hc]
    · simp [hc]

theorem scheduleRequest_of_none {sec : Nat} (h : s.responses sec = none) :
    s.scheduleRequest sec = ({ s with responses := Function.update s.responses sec (some ⟨none, false⟩) }, true) := by
  unfold scheduleRequest
  rw [h]

theorem scheduleRequest_of_some {sec : Nat} {res : Response} (h : s.responses sec = some res) :
    s.scheduleRequest sec = (s, false) := by
  unfold scheduleRequest
  rw [h]

/-- A request only adds an empty response, so the cached bits stay. -/
theorem cached_scheduleRequest (s : Scheduler) (sec : Nat) : (s.scheduleRequest sec).1.cached = s.cached := by
  funext x
  cases h : s.responses sec with
  | none =>
    rw [scheduleRequest_of_none h]
    unfold cached
    dsimp only
    by_cases hx : x = sec
    · subst hx
      rw [Function.update_self, h]
      rfl
    · rw [Function.update_of_ne hx]
  | some res => rw [scheduleRequest_of_some h]

/-- After a request the section has a response, and the others keep theirs. -/
theorem scheduleRequest_ne_none {sec x : Nat} (hx : s.responses x ≠ none ∨ x = sec) :
    (s.scheduleRequest sec).1.responses x ≠ none := by
  cases h : s.responses sec with
  | some res =>
    rw [scheduleRequest_of_some h]
    rcases hx with hx | rfl
    · exact hx
    · rw [h]
      exact Option.some_ne_none res
  | none =>
    rw [scheduleRequest_of_none h]
    dsimp only
    by_cases hxs : x = sec
    · rw [hxs, Function.update_self]
      exact Option.some_ne_none _
    · rw [Function.update_of_ne hxs]
      exact hx.resolve_right hxs

theorem doneIff_scheduleRequest (hs : s.DoneIff) (sec : Nat) : (s.scheduleRequest sec).1.DoneIff := by
  cases h : s.responses sec with
  | some res =>
    rw [scheduleRequest_of_some h]
    exact hs
  | none =>
    rw [scheduleRequest_of_none h]
    intro x res hres
    dsimp only at hres
    by_cases hx : x = sec
    · rw [hx, Function.update_self, Option.some.injEq] at hres
      subst hres
      simp
    · rw [Function.update_of_ne hx] at hres
      exact hs x res hres

theorem awaitDelivery_ne_none {idx : Nat} (h : s.responses idx ≠ none) : s.awaitDelivery idx ≠ none := by
  obtain ⟨res, hres⟩ := Option.ne_none_iff_exists'.1 h
  unfold awaitDelivery
  rw [hres]
  dsimp only
  split
  · exact Option.some_ne_none _
  · exact Option.some_ne_none _

theorem awaitDelivery_ready {idx : Nat} {d : Option (List UInt8)} (h : s.awaitDelivery idx = some (.ready d)) :
    ∃ res, s.responses idx = some res ∧ res.done = true ∧ res.cached = d := by
  unfold awaitDelivery at h
  cases hres : s.responses idx with
  | none =>
    rw [hres] at h
    cases h
  | some res =>
    rw [hres] at h
    cases hd : res.done
    · simp [hd] at h
    · simp only [hd, if_true, Option.some.injEq, Delivery.ready.injEq] at h
      exact ⟨res, rfl, hd, h⟩

/-! ### Deliveries -/

theorem Delivered.refl (data : List (Option (List UInt8))) (s : Scheduler) : Delivered data s s :=
  fun _ => Or.inl rfl

theorem Delivered.trans {s₁ s₂ s₃ : Scheduler} (h₁ : Delivered data s₁ s₂) (h₂ : Delivered data s₂ s₃) :
    Delivered data s₁ s₃ := fun sec => by
  rcases h₂ sec with h | ⟨res, hres, hc, d, hd, h₃⟩
  · rw [h]
    exact h₁ sec
  · right
    rcases h₁ sec with h' | ⟨res₁, hres₁, hc₁, -, -, -⟩
    · exact ⟨res, h'.symm.trans hres, hc, d, hd, h₃⟩
    · exact ⟨res₁, hres₁, hc₁, d, hd, h₃⟩

/-- A delivery never drops a response. -/
theorem Delivered.ne_none (h : Delivered data s s') {sec : Nat} (hs : s.responses sec ≠ none) :
    s'.responses sec ≠ none := by
  rcases h sec with h | ⟨_, _, _, _, _, h⟩
  · rw [h]
    exact hs
  · rw [h]
    exact Option.some_ne_none _

/-- A delivery never changes bits already cached. -/
theorem Delivered.cached_eq (h : Delivered data s s') {sec : Nat} {d : List UInt8} (hd : s.cached sec = some d) :
    s'.cached sec = some d := by
  rcases h sec with h | ⟨res, hres, hc, _, _, _⟩
  · unfold cached
    rw [h]
    exact hd
  · unfold cached at hd
    rw [hres, Option.bind_some, hc] at hd
    cases hd

/-- Bits that are all there keep `done` closed exactly on the responses with bits. -/
theorem Delivered.doneIff (h : Delivered data s s') (hs : s.DoneIff) (hdata : ∀ d ∈ data, d ≠ none) :
    s'.DoneIff := fun sec res hres => by
  rcases h sec with h | ⟨_, _, _, d, hd, h⟩
  · exact hs sec res (h ▸ hres)
  · rw [h, Option.some.injEq] at hres
    subst hres
    simpa using hdata d hd

theorem deliverOne_delivered {p : Nat × Nat} (h : deliverOne data s p = some s') : Delivered data s s' := by
  unfold deliverOne at h
  cases hres : s.responses p.1 with
  | none =>
    rw [hres] at h
    cases h
    exact Delivered.refl data s
  | some res =>
    rw [hres] at h
    dsimp only at h
    by_cases hc : res.cached = none
    · rw [if_pos hc] at h
      cases hd : data[p.2]? with
      | none =>
        rw [hd] at h
        cases h
      | some d =>
        rw [hd] at h
        cases hdone : res.done
        · simp only [hdone, Bool.false_eq_true, if_false, Option.some.injEq] at h
          subst h
          intro sec
          by_cases hsec : sec = p.1
          · subst hsec
            exact Or.inr ⟨res, hres, hc, d, List.mem_of_getElem? hd, Function.update_self ..⟩
          · exact Or.inl (Function.update_of_ne hsec _ _)
        · simp [hdone] at h
    · rw [if_neg hc] at h
      cases h
      exact Delivered.refl data s

/-- `deliverOne` panics on neither of its two counts when `done` is closed exactly on the responses
with bits and the index is within the data. -/
theorem deliverOne_ok (hs : s.DoneIff) {p : Nat × Nat} (hp : p.2 < data.length) :
    ∃ s', deliverOne data s p = some s' := by
  unfold deliverOne
  cases hres : s.responses p.1 with
  | none => exact ⟨s, rfl⟩
  | some res =>
    dsimp only
    by_cases hc : res.cached = none
    · -- a response without bits still has `done` open
      have hopen : res.done = false := by
        cases hd : res.done
        · rfl
        · exact absurd hc ((hs _ _ hres).1 hd)
      rw [if_pos hc, List.getElem?_eq_getElem hp]
      simp only [hopen, Bool.false_eq_true, if_false]
      exact ⟨_, rfl⟩
    · rw [if_neg hc]
      exact ⟨s, rfl⟩

theorem deliver_delivered {sections : List Nat} (h : s.deliver sections data = some s') : Delivered data s s' :=
  Loop.foldlM_inv (fun _ b => Delivered data s b)
    (fun _ _ _ _ hb hstep => hb.trans (deliverOne_delivered hstep)) (Delivered.refl data s) h

/-- `deliver` of bits that are all there, one for each section, never panics. -/
theorem deliver_ok (hs : s.DoneIff) {sections : List Nat} (hlen : sections.length = data.length)
    (hdata : ∀ d ∈ data, d ≠ none) : ∃ s', s.deliver sections data = some s' := by
  -- the loop keeps the indexes ahead within the data and what it has delivered so far
  have hrun := Loop.foldlM_some (f := deliverOne data)
    (fun l b => (∀ p ∈ l, p.2 < data.length) ∧ Delivered data s b)
    (fun a l b ⟨hidx, hb⟩ => by
      obtain ⟨b', hb'⟩ := deliverOne_ok (hb.doneIff hs hdata) (hidx a (List.mem_cons_self ..))
      exact ⟨b', hb', fun p hp => hidx p (List.mem_cons_of_mem a hp), hb.trans (deliverOne_delivered hb')⟩)
    (l := sections.zipIdx) ⟨fun p hp => by
      have := (List.mem_zipIdx (x := p.1) (i := p.2) hp).2.1
      omega, Delivered.refl data s⟩
  obtain ⟨r, hr, -⟩ := hrun
  exact ⟨r, hr⟩

end Scheduler

/-- The sections of a retrieval result that `distributor` delivers, with their bitsets: those whose
bitset is not empty (the others are requested again). -/
def deliverable (sections : List Nat) (bitsets : List (Option (List UInt8))) : List (Nat × Option (List UInt8)) :=
  (sections.zip bitsets).filter fun p => (p.2.getD []).length ≠ 0

/-- A run of the scheduler (`run`): the sections read so far, the `pend` channel between
`scheduleRequests` and `scheduleDeliveries`, and the bits sent on `done`. -/
structure Run where
  read : List Nat
  pend : List Nat
  out : List (Option (List UInt8))

def emptyRun : Run := ⟨[], [], []⟩

/-- The scheduler in a matching session: its runs and the sections it sent to the distributor. -/
structure Session where
  sched : Scheduler
  runs : Nat → Run
  dist : List Nat

namespace Session

def init (bit : Nat) : Session := ⟨newScheduler bit, fun _ => emptyRun, []⟩

/-- `scheduleRequests` of run `r` reads `section_`: sent to the distributor if unique, and to `pend`. -/
def request (σ : Session) (r section_ : Nat) : Session :=
  { sched := (σ.sched.scheduleRequest section_).1
    runs := Function.update σ.runs r
      { σ.runs r with read := (σ.runs r).read ++ [section_], pend := (σ.runs r).pend ++ [section_] }
    dist := if (σ.sched.scheduleRequest section_).2 then σ.dist ++ [section_] else σ.dist }

/-- `scheduleDeliveries` of run `r` takes the head of `pend` and sends `data` on `done`. -/
def emit (σ : Session) (r : Nat) (data : Option (List UInt8)) : Session :=
  { σ with runs := Function.update σ.runs r { σ.runs r with pend := (σ.runs r).pend.tail, out := (σ.runs r).out ++ [data] } }

/-- `Matcher.Start` after the previous session's `Close`: the scheduler reset, with a new
distributor and no runs yet, the old session's runs and requests gone.  `Start`'s `running` flag
does not enforce that order: `Start` clears it again when it returns, so Go lets a new session start
while the last one still runs, a case the model leaves out. -/
def restart (σ : Session) : Session := ⟨σ.sched.reset, fun _ => emptyRun, []⟩

end Session

/-- The steps of the goroutines that share the scheduler, in any interleaving: a run reads a
section, a run sends the bits of the head of its `pend` once they are there, the distributor
delivers a retrieval result, or a new session starts after the last one closed. -/
inductive Step : Session → Session → Prop where
  | request (σ : Session) (r section_ : Nat) : Step σ (σ.request r section_)
  | emit {σ : Session} {r idx : Nat} {data : Option (List UInt8)} :
      (σ.runs r).pend.head? = some idx → σ.sched.awaitDelivery idx = some (.ready data) → Step σ (σ.emit r data)
  | deliver {σ : Session} {s' : Scheduler} (sections : List Nat) (bitsets : List (Option (List UInt8))) :
      σ.sched.deliver ((deliverable sections bitsets).map Prod.fst) ((deliverable sections bitsets).map Prod.snd) =
        some s' → Step σ { σ with sched := s' }
  | restart (σ : Session) : Step σ σ.restart

/-- The states a scheduler of bit `bit` can reach from its creation. -/
def Reachable (bit : Nat) (σ : Session) : Prop := Relation.ReflTransGen Step (Session.init bit) σ

/-! ### The runs -/

/-- A run has sent, in the order it read them, the cached bits of the sections it read before those
still in `pend`. -/
def Run.Ordered (c : Nat → Option (List UInt8)) (run : Run) : Prop :=
  ∃ emitted : List Nat, run.read = emitted ++ run.pend ∧ (∀ sec ∈ emitted, c sec ≠ none) ∧ run.out = emitted.map c

namespace Run

variable {c : Nat → Option (List UInt8)} {run : Run}

theorem ordered_empty (c : Nat → Option (List UInt8)) : emptyRun.Ordered c :=
  ⟨[], rfl, (fun _ h => by cases h), rfl⟩

/-- Reading a section puts it at the end of `pend`. -/
theorem Ordered.read (h : run.Ordered c) (sec : Nat) :
    { run with read := run.read ++ [sec], pend := run.pend ++ [sec] }.Ordered c := by
  obtain ⟨emitted, hread, hne, hout⟩ := h
  exact ⟨emitted, by rw [hread, List.append_assoc], hne, hout⟩

/-- Sending the bits of the head of `pend` moves it to the sections sent. -/
theorem Ordered.emit (h : run.Ordered c) {idx : Nat} (hidx : run.pend.head? = some idx) {d : Option (List UInt8)}
    (hc : c idx = d) (hd : d ≠ none) :
    { run with pend := run.pend.tail, out := run.out ++ [d] }.Ordered c := by
  obtain ⟨emitted, hread, hne, hout⟩ := h
  obtain ⟨rest, hpend⟩ : ∃ rest, run.pend = idx :: rest := by
    cases hp : run.pend with
    | nil => rw [hp] at hidx; cases hidx
    | cons a rest =>
      rw [hp, List.head?_cons, Option.some.injEq] at hidx
      exact ⟨rest, by rw [hidx]⟩
  refine ⟨emitted ++ [idx], ?_, ?_, ?_⟩
  · dsimp only
    rw [hread, hpend, List.tail_cons, List.append_assoc, List.singleton_append]
  · intro sec hsec
    rcases List.mem_append.1 hsec with hsec | hsec
    · exact hne sec hsec
    · rw [List.mem_singleton.1 hsec, hc]
      exact hd
  · dsimp only
    rw [hout, List.map_append, List.map_singleton, hc]

/-- The order holds for any cached bits that keep those already there. -/
theorem Ordered.mono {c' : Nat → Option (List UInt8)} (h : run.Ordered c) (hc : ∀ sec, c sec ≠ none → c' sec = c sec) :
    run.Ordered c' := by
  obtain ⟨emitted, hread, hne, hout⟩ := h
  have hmap : emitted.map c' = emitted.map c := List.map_congr_left fun sec hsec => hc sec (hne sec hsec)
  refine ⟨emitted, hread, fun sec hsec => ?_, by rw [hout, hmap]⟩
  rw [hc sec (hne sec hsec)]
  exact hne sec hsec

end Run

theorem ordered_update {c : Nat → Option (List UInt8)} {runs : Nat → Run} (h : ∀ r, (runs r).Ordered c) {r : Nat}
    {run : Run} (hrun : run.Ordered c) (r' : Nat) : (Function.update runs r run r').Ordered c := by
  by_cases hr : r' = r
  · rw [hr, Function.update_self]
    exact hrun
  · rw [Function.update_of_ne hr]
    exact h r'

/-! ### The invariant of the reachable states -/

namespace Session

/-- What holds in every reachable state: `done` is closed exactly on the responses with bits;
every section in a run's `pend` has a response; the sections sent to the distributor in the session
are distinct, have a response, and include every response still waiting; and each run's output is
in order. -/
structure Inv (σ : Session) : Prop where
  done_iff : σ.sched.DoneIff
  pend_response : ∀ r, ∀ sec ∈ (σ.runs r).pend, σ.sched.responses sec ≠ none
  dist_nodup : σ.dist.Nodup
  dist_response : ∀ sec ∈ σ.dist, σ.sched.responses sec ≠ none
  waiting_sent : ∀ sec res, σ.sched.responses sec = some res → res.cached = none → sec ∈ σ.dist
  ordered : ∀ r, (σ.runs r).Ordered σ.sched.cached

variable {σ : Session}

theorem inv_init (bit : Nat) : (init bit).Inv where
  done_iff _ _ h := by cases h
  pend_response _ _ h := by cases h
  dist_nodup := List.nodup_nil
  dist_response _ h := by cases h
  waiting_sent _ _ h := by cases h
  ordered _ := Run.ordered_empty _

theorem inv_request (hσ : σ.Inv) (r sec : Nat) : (σ.request r sec).Inv := by
  have hcached := Scheduler.cached_scheduleRequest σ.sched sec
  have hpend : ∀ r', ∀ x ∈ ((σ.request r sec).runs r').pend, (σ.request r sec).sched.responses x ≠ none := by
    intro r' x hx
    apply Scheduler.scheduleRequest_ne_none
    by_cases hr : r' = r
    · rw [hr] at hx
      simp only [request, Function.update_self, List.mem_append, List.mem_singleton] at hx
      exact hx.imp (hσ.pend_response r x) id
    · simp only [request, Function.update_of_ne hr] at hx
      exact Or.inl (hσ.pend_response r' x hx)
  have hordered : ∀ r', ((σ.request r sec).runs r').Ordered (σ.request r sec).sched.cached := by
    intro r'
    simp only [request, hcached]
    exact ordered_update hσ.ordered ((hσ.ordered r).read sec) r'
  cases h : σ.sched.responses sec with
  | some res =>
    -- the section had a response: nothing is sent to the distributor
    have hreq := Scheduler.scheduleRequest_of_some h
    refine ⟨?_, hpend, ?_, ?_, ?_, hordered⟩ <;> simp only [request, hreq, if_false, Bool.false_eq_true]
    · exact hσ.done_iff
    · exact hσ.dist_nodup
    · exact hσ.dist_response
    · exact hσ.waiting_sent
  | none =>
    -- a new response, and the section sent to the distributor
    have hreq := Scheduler.scheduleRequest_of_none h
    have hnew : sec ∉ σ.dist := fun hmem => hσ.dist_response sec hmem h
    refine ⟨Scheduler.doneIff_scheduleRequest hσ.done_iff sec, hpend, ?_, ?_, ?_, hordered⟩
    · simp only [request, hreq, if_true]
      exact List.nodup_append.2 ⟨hσ.dist_nodup, List.nodup_cons.2 ⟨List.not_mem_nil, List.nodup_nil⟩,
        fun a ha b hb => by rw [List.mem_singleton.1 hb]; exact fun hab => hnew (hab ▸ ha)⟩
    · intro x hx
      apply Scheduler.scheduleRequest_ne_none
      simp only [request, hreq, if_true, List.mem_append, List.mem_singleton] at hx
      exact hx.imp (hσ.dist_response x) id
    · intro x res hres hc
      simp only [request, hreq, if_true, List.mem_append, List.mem_singleton]
      by_cases hx : x = sec
      · exact Or.inr hx
      · simp only [request, hreq, Function.update_of_ne hx] at hres
        exact Or.inl (hσ.waiting_sent x res hres hc)

theorem inv_emit (hσ : σ.Inv) {r idx : Nat} {d : Option (List UInt8)} (hidx : (σ.runs r).pend.head? = some idx)
    (hready : σ.sched.awaitDelivery idx = some (.ready d)) : (σ.emit r d).Inv := by
  obtain ⟨res, hres, hdone, hd⟩ := Scheduler.awaitDelivery_ready hready
  have hc : σ.sched.cached idx = d := by
    unfold Scheduler.cached
    rw [hres, Option.bind_some, hd]
  have hne : d ≠ none := hd ▸ (hσ.done_iff idx res hres).1 hdone
  refine ⟨hσ.done_iff, fun r' x hx => ?_, hσ.dist_nodup, hσ.dist_response, hσ.waiting_sent,
    ordered_update hσ.ordered ((hσ.ordered r).emit hidx hc hne)⟩
  by_cases hr : r' = r
  · rw [hr] at hx
    simp only [emit, Function.update_self] at hx
    exact hσ.pend_response r x (List.mem_of_mem_tail hx)
  · simp only [emit, Function.update_of_ne hr] at hx
    exact hσ.pend_response r' x hx

/-- What the distributor delivers has bits: it holds back the empty bitsets. -/
theorem deliverable_ne_none (sections : List Nat) (bitsets : List (Option (List UInt8))) :
    ∀ d ∈ (deliverable sections bitsets).map Prod.snd, d ≠ none := by
  intro d hd
  obtain ⟨p, hp, rfl⟩ := List.mem_map.1 hd
  have hlen := (List.mem_filter.1 hp).2
  intro hnone
  rw [hnone] at hlen
  simp at hlen

theorem inv_deliver (hσ : σ.Inv) {s' : Scheduler} {data : List (Option (List UInt8))}
    (hdel : Scheduler.Delivered data σ.sched s') (hdata : ∀ d ∈ data, d ≠ none) : { σ with sched := s' }.Inv := by
  refine ⟨hdel.doneIff hσ.done_iff hdata, fun r x hx => hdel.ne_none (hσ.pend_response r x hx), hσ.dist_nodup,
    fun x hx => hdel.ne_none (hσ.dist_response x hx), ?_,
    fun r => (hσ.ordered r).mono fun x hx => ?_⟩
  · intro x res hres hc
    rcases hdel x with h | ⟨_, _, _, d, hd, h⟩
    · exact hσ.waiting_sent x res (h ▸ hres) hc
    · rw [h, Option.some.injEq] at hres
      subst hres
      exact absurd hc (hdata d hd)
  · obtain ⟨d, hd⟩ := Option.ne_none_iff_exists'.1 hx
    rw [hd]
    exact hdel.cached_eq hd

theorem inv_restart (hσ : σ.Inv) : σ.restart.Inv where
  done_iff x res hres := hσ.done_iff x res (Scheduler.reset_eq_some.1 hres).1
  pend_response _ _ h := by cases h
  dist_nodup := List.nodup_nil
  dist_response _ h := by cases h
  waiting_sent _ _ hres hc := absurd hc (Scheduler.reset_eq_some.1 hres).2
  ordered _ := Run.ordered_empty _

theorem inv_step {σ' : Session} (hσ : σ.Inv) (h : Step σ σ') : σ'.Inv := by
  cases h with
  | request r sec => exact inv_request hσ r sec
  | emit hidx hready => exact inv_emit hσ hidx hready
  | deliver sections bitsets hdel =>
    exact inv_deliver hσ (Scheduler.deliver_delivered hdel) (deliverable_ne_none sections bitsets)
  | restart => exact inv_restart hσ

end Session

theorem reachable_inv {bit : Nat} {σ : Session} (h : Reachable bit σ) : σ.Inv := by
  induction h with
  | refl => exact Session.inv_init bit
  | tail _ hstep ih => exact Session.inv_step ih hstep

/-- Run 0 of the scheduler of bit 0 has read section 5 twice. -/
def sampleRequested : Session := ((Session.init 0).request 0 5).request 0 5

/-- The distributor then delivered section 5. -/
def sampleDelivered : Session :=
  { sampleRequested with sched := (sampleRequested.sched.deliver [5] [some [1]]).getD sampleRequested.sched }

/-- The run then sent the bits of its first section. -/
def sampleSent : Session := sampleDelivered.emit 0 (some [1])

theorem reachable_sampleSent : Reachable 0 sampleSent :=
  .tail (.tail (.tail (.tail .refl (Step.request _ 0 5)) (Step.request _ 0 5)) (Step.deliver [5] [some [1]] rfl))
    (Step.emit rfl rfl)

/-- The second read of section 5 was not sent to the distributor again. -/
example : sampleSent.dist = [5] ∧ (sampleSent.runs 0).read = [5, 5] ∧ (sampleSent.runs 0).out = [some [1]] := by
  decide

/-- **No panic.**  In every reachable state, the delivery of any retrieval result goes through, and
each run's next section has a response to wait on. -/
theorem deliver_never_panics {bit : Nat} {σ : Session} (h : Reachable bit σ) :
    (∀ sections bitsets, ∃ s', σ.sched.deliver ((deliverable sections bitsets).map Prod.fst)
        ((deliverable sections bitsets).map Prod.snd) = some s') ∧
      ∀ r idx, (σ.runs r).pend.head? = some idx → σ.sched.awaitDelivery idx ≠ none := by
  have hσ := reachable_inv h
  refine ⟨fun sections bitsets => ?_, fun r idx hidx => ?_⟩
  · exact Scheduler.deliver_ok hσ.done_iff (by rw [List.length_map, List.length_map])
      (Session.deliverable_ne_none sections bitsets)
  · exact Scheduler.awaitDelivery_ne_none (hσ.pend_response r idx (List.mem_of_mem_head? hidx))

theorem deliver_never_panics_sample :
    Reachable 0 sampleSent ∧
      (∀ sections bitsets, ∃ s', sampleSent.sched.deliver ((deliverable sections bitsets).map Prod.fst)
          ((deliverable sections bitsets).map Prod.snd) = some s') ∧
        ∀ r idx, (sampleSent.runs r).pend.head? = some idx → sampleSent.sched.awaitDelivery idx ≠ none :=
  ⟨reachable_sampleSent, deliver_never_panics reachable_sampleSent⟩

/-- **In order.**  In every reachable state, each run has sent the cached bits of the first sections
it read, in the order it read them, and the others wait in `pend`; it never sent a nil. -/
theorem run_out_cached {bit : Nat} {σ : Session} (h : Reachable bit σ) (r : Nat) :
    ∃ k, (σ.runs r).out = ((σ.runs r).read.take k).map σ.sched.cached ∧ (σ.runs r).pend = (σ.runs r).read.drop k ∧
      ∀ d ∈ (σ.runs r).out, d ≠ none := by
  obtain ⟨emitted, hread, hne, hout⟩ := (reachable_inv h).ordered r
  refine ⟨emitted.length, ?_, ?_, ?_⟩
  · rw [hout, hread, List.take_left]
  · rw [hread, List.drop_left]
  · intro d hd
    rw [hout] at hd
    obtain ⟨sec, hsec, rfl⟩ := List.mem_map.1 hd
    exact hne sec hsec

theorem run_out_cached_sample :
    Reachable 0 sampleSent ∧
      ∃ k, (sampleSent.runs 0).out = ((sampleSent.runs 0).read.take k).map sampleSent.sched.cached ∧
        (sampleSent.runs 0).pend = (sampleSent.runs 0).read.drop k ∧ ∀ d ∈ (sampleSent.runs 0).out, d ≠ none :=
  ⟨reachable_sampleSent, run_out_cached reachable_sampleSent 0⟩

/-- **One retrieval per section.**  In every reachable state, the sections sent to the distributor
in the session are distinct, and every response still waiting has been sent. -/
theorem dist_nodup_waiting {bit : Nat} {σ : Session} (h : Reachable bit σ) :
    σ.dist.Nodup ∧ ∀ sec res, σ.sched.responses sec = some res → res.cached = none → sec ∈ σ.dist :=
  ⟨(reachable_inv h).dist_nodup, (reachable_inv h).waiting_sent⟩

theorem dist_nodup_waiting_sample :
    Reachable 0 sampleRequested ∧ sampleRequested.dist.Nodup ∧
      ∀ sec res, sampleRequested.sched.responses sec = some res → res.cached = none → sec ∈ sampleRequested.dist :=
  ⟨.tail (.tail .refl (Step.request _ 0 5)) (Step.request _ 0 5),
    dist_nodup_waiting (.tail (.tail .refl (Step.request _ 0 5)) (Step.request _ 0 5))⟩

theorem cached_step {σ σ' : Session} (h : Step σ σ') {sec : Nat} {d : List UInt8} (hd : σ.sched.cached sec = some d) :
    σ'.sched.cached sec = some d := by
  cases h with
  | request r sec' =>
    show (σ.sched.scheduleRequest sec').1.cached sec = some d
    rw [Scheduler.cached_scheduleRequest]
    exact hd
  | emit _ _ => exact hd
  | deliver _ _ hdel => exact (Scheduler.deliver_delivered hdel).cached_eq hd
  | restart =>
    show σ.sched.reset.cached sec = some d
    rw [Scheduler.cached_reset]
    exact hd

/-- **The first delivery wins.**  Whatever the steps, from any state, bits once cached for a
section stay, across deliveries, requests and new sessions. -/
theorem cached_of_steps {σ σ' : Session} (h : Relation.ReflTransGen Step σ σ') {sec : Nat} {d : List UInt8}
    (hd : σ.sched.cached sec = some d) : σ'.sched.cached sec = some d := by
  induction h with
  | refl => exact hd
  | tail _ hstep ih => exact cached_step hstep ih

theorem cached_of_steps_sample :
    (Relation.ReflTransGen Step sampleDelivered sampleDelivered.restart ∧ sampleDelivered.sched.cached 5 = some [1]) ∧
      sampleDelivered.restart.sched.cached 5 = some [1] :=
  ⟨⟨.single (Step.restart _), rfl⟩, cached_of_steps (.single (Step.restart _)) rfl⟩

end Go420coin.Bloombits
