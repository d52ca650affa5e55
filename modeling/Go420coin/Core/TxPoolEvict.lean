import Go420coin.Core.TxPool

/-!
# What a failed `add` leaves in the pool

With room in the pool, a failed `add` returns before it writes anything but, when the future
queue refuses the transaction, an empty queue for its sender (`add_error_of_room`).

A full pool is different: `add` evicts the cheapest remote transactions before it looks for a
pending transaction of the same nonce.  If there is one and the new price does not clear the bump,
`add` fails with `ErrReplaceUnderpriced` after the eviction, and the evicted transaction is gone
(`add_rejects_after_evicting`).

The eviction loop is read through `Keeps a`: no hash enters the lookup, and the pending list of
`a` stays as it was.  `removeTx` keeps it for every account but the sender of what it removes.
-/

namespace Go420coin.Core

open EStateM

variable {now : Nat}

/-! ### The lookup and the pool's updates -/

namespace TxLookup

theorem get_remove_self (t : TxLookup) (h : Hash) : (t.remove h).get h = none := by
  unfold remove
  cases hg : t.get h with
  | none => exact hg
  | some tx => simp [get, AList.lookup_erase]

theorem get_remove_ne (t : TxLookup) {h k : Hash} (hne : k ≠ h) : (t.remove h).get k = t.get k := by
  unfold remove
  cases t.get h with
  | none => rfl
  | some tx => simp [get, AList.lookup_erase_ne hne]

theorem get_remove_eq_none (t : TxLookup) (h : Hash) {k : Hash} (hk : t.get k = none) :
    (t.remove h).get k = none := by
  by_cases he : k = h
  · subst he
    exact get_remove_self t k
  · exact (get_remove_ne t he).trans hk

theorem get_of_remote {t : TxLookup} {h : Hash} {tx : PoolTx} (hnl : t.locals.lookup h = none)
    (hlive : t.remotes.lookup h = some tx) : t.get h = some tx := by
  simp [get, hnl, hlive]

end TxLookup

namespace TxPool

variable (pool : TxPool) (old : Option PoolTx)

@[simp] theorem dropReplaced_pending : (pool.dropReplaced old).pending = pool.pending := by
  cases old <;> rfl

@[simp] theorem dropReplaced_queue : (pool.dropReplaced old).queue = pool.queue := by
  cases old <;> rfl

@[simp] theorem dropReplaced_config : (pool.dropReplaced old).config = pool.config := by
  cases old <;> rfl

@[simp] theorem track_pending (tx : PoolTx) (isLocal : Bool) : (pool.track tx isLocal).pending = pool.pending :=
  rfl

@[simp] theorem track_config (tx : PoolTx) (isLocal : Bool) : (pool.track tx isLocal).config = pool.config :=
  rfl

theorem dropReplaced_get_none {k : Hash} (hk : pool.all.get k = none) :
    (pool.dropReplaced old).all.get k = none := by
  cases old with
  | none => exact hk
  | some old => exact TxLookup.get_remove_eq_none _ _ hk

end TxPool

/-- `p'` holds no hash that `p` does not, `a`'s pending list is as in `p`, and so is the
configuration. -/
def Keeps (a : Address) (p p' : TxPool) : Prop :=
  (∀ k, p.all.get k = none → p'.all.get k = none) ∧ p'.pending.lookup a = p.pending.lookup a ∧
    p'.config = p.config

theorem Keeps.refl (a : Address) (p : TxPool) : Keeps a p p := ⟨fun _ h => h, rfl, rfl⟩

theorem Keeps.trans {a : Address} {p₁ p₂ p₃ : TxPool} (h₁ : Keeps a p₁ p₂) (h₂ : Keeps a p₂ p₃) :
    Keeps a p₁ p₃ :=
  ⟨fun k hk => h₂.1 k (h₁.1 k hk), h₂.2.1.trans h₁.2.1, h₂.2.2.trans h₁.2.2⟩

/-! ### `enqueueTx` and `removeTx` -/

theorem enqueueTx_pending (tx : PoolTx) (isLocal addAll : Bool) (p : TxPool) :
    (enqueueTx now tx isLocal addAll p).state.pending = p.pending := by
  unfold enqueueTx
  dsimp only
  split <;> split_ifs <;> simp

theorem enqueueTx_config (tx : PoolTx) (isLocal addAll : Bool) (p : TxPool) :
    (enqueueTx now tx isLocal addAll p).state.config = p.config := by
  unfold enqueueTx
  dsimp only
  split <;> split_ifs <;> simp

/-- Without `addAll`, as when `removeTx` moves the invalidated transactions, no hash enters. -/
theorem enqueueTx_get_none (tx : PoolTx) (isLocal : Bool) (p : TxPool) {k : Hash}
    (hk : p.all.get k = none) : (enqueueTx now tx isLocal false p).state.all.get k = none := by
  simp only [enqueueTx, Bool.false_eq_true, ↓reduceIte]
  split <;> split_ifs <;> simp [TxPool.dropReplaced_get_none, hk]

theorem enqueueTx_keeps (tx : PoolTx) (isLocal : Bool) (a : Address) (p : TxPool) :
    Keeps a p (enqueueTx now tx isLocal false p).state :=
  ⟨fun _ hk => enqueueTx_get_none tx isLocal p hk, by rw [enqueueTx_pending], enqueueTx_config ..⟩

/-- A refused transaction leaves the queue its sender may have been given. -/
theorem enqueueTx_error {tx : PoolTx} {isLocal addAll : Bool} {p p' : TxPool} {e : PoolError}
    (h : enqueueTx now tx isLocal addAll p = .error e p') :
    e = .replaceUnderpriced ∧ p' = if tx.fromAddr ∈ p.queue then p
      else { p with queue := p.queue.insert tx.fromAddr (newTxList false) } := by
  unfold enqueueTx at h
  dsimp only at h
  split at h
  · cases h
    exact ⟨rfl, rfl⟩
  · cases h

theorem removeQueued_keeps (addr : Address) (tx : PoolTx) (p : TxPool) :
    ∃ p', removeQueued addr tx p = .ok () p' ∧ p'.all = p.all ∧ p'.pending = p.pending ∧
      p'.config = p.config := by
  refine ⟨_, rfl, ?_⟩
  dsimp only
  split
  · exact ⟨rfl, rfl, rfl⟩
  · split <;> exact ⟨rfl, rfl, rfl⟩

/-- `removeTx` of a transaction the pool holds: it leaves the lookup, and the pending list of
every other account is kept. -/
theorem removeTx_evicts {p : TxPool} {h : Hash} {tx : PoolTx} {a : Address}
    (hget : p.all.get h = some tx) (ha : tx.fromAddr ≠ a) :
    ∃ p', removeTx now h false p = .ok () p' ∧ p'.all.get h = none ∧ Keeps a p p' := by
  -- the state once the transaction left the lookup
  set p₁ : TxPool := { p with all := p.all.remove h } with hp₁
  have h₁ : p₁.all.get h = none := TxLookup.get_remove_self _ _
  have k₁ : Keeps a p p₁ := ⟨fun k hk => TxLookup.get_remove_eq_none _ _ hk, rfl, rfl⟩
  suffices hrest : ∃ p', removeTx now h false p = .ok () p' ∧ Keeps a p₁ p' by
    obtain ⟨p', hp', k'⟩ := hrest
    exact ⟨p', hp', k'.1 h h₁, k₁.trans k'⟩
  simp only [removeTx, bind_apply, get_apply, set_apply, hget, Bool.false_eq_true, ↓reduceIte, ← hp₁]
  cases hpend : p₁.pending.lookup tx.fromAddr with
  | none =>
    obtain ⟨p', hp', hall, hpen, hconf⟩ := removeQueued_keeps tx.fromAddr tx p₁
    exact ⟨p', hp', fun k hk => hall ▸ hk, congrArg _ hpen, hconf⟩
  | some pending =>
    by_cases hr : (pending.remove tx).1 = true
    · -- the sender's pending list changes, and the invalidated transactions go to its queue
      set p₂ : TxPool := { p₁ with
        pending := if (pending.remove tx).2.2.empty then p₁.pending.erase tx.fromAddr
          else p₁.pending.insert tx.fromAddr (pending.remove tx).2.2 } with hp₂
      have k₂ : Keeps a p₁ p₂ := by
        refine ⟨fun _ hk => hk, ?_, rfl⟩
        simp only [hp₂]
        split_ifs
        · exact AList.lookup_erase_ne ha.symm
        · exact AList.lookup_insert_ne ha.symm
      obtain ⟨p₃, hp₃, k₃⟩ := forM_discardError (Keeps.refl a) (fun _ _ _ => Keeps.trans)
        (fun t s => enqueueTx_keeps t false a s) (pending.remove tx).2.1 p₂
      simp only [hr, ↓reduceIte, bind_apply, set_apply, ← hp₂]
      rw [hp₃]
      exact ⟨_, rfl, k₂.trans (k₃.trans ⟨fun _ hk => hk, rfl, rfl⟩)⟩
    · obtain ⟨p', hp', hall, hpen, hconf⟩ := removeQueued_keeps tx.fromAddr tx p₁
      simp only [hr, Bool.false_eq_true, ↓reduceIte]
      exact ⟨p', hp', fun k hk => hall ▸ hk, congrArg _ hpen, hconf⟩

/-! ### The price heap with a live cheapest entry -/

section Heap

variable {all : TxLookup} {c : PoolTx} {rest : List PoolTx}

theorem popStale_of_live {st : Int} (hlive : all.getRemote c.hash = some c) :
    popStale all (c :: rest) st = (c :: rest, st) := by
  simp [popStale, hlive]

theorem discardLoop_of_nonpos {l drop : List PoolTx} {st slots : Int} (h : slots ≤ 0) :
    discardLoop all l st slots drop = (l, st, slots, drop) := by
  cases l with
  | nil => rfl
  | cons x l => simp [discardLoop, show ¬ 0 < slots by omega]

variable {l : TxPricedList}

theorem underpriced_of_live (hheap : l.remotes = c :: rest) (hlive : all.getRemote c.hash = some c)
    (tx : PoolTx) : l.underpriced all tx = (decide (tx.smokePrice ≤ c.smokePrice), l) := by
  simp [TxPricedList.underpriced, hheap, popStale_of_live hlive]
  rw [← hheap]

/-- A live cheapest entry that frees the slots asked for is all that `Discard` drops. -/
theorem discard_of_live {slots : Int} (hheap : l.remotes = c :: rest)
    (hlive : all.getRemote c.hash = some c) (h0 : 0 < slots) (hle : slots ≤ numSlots c) (force : Bool) :
    l.discard all slots force = ([c], true, ⟨rest, l.stales⟩) := by
  have hloop : discardLoop all l.remotes l.stales slots [] = (rest, l.stales, slots - numSlots c, [c]) := by
    rw [hheap]
    simp [discardLoop, h0, hlive, discardLoop_of_nonpos (show slots - numSlots c ≤ 0 by omega)]
  simp [TxPricedList.discard, hloop, show ¬ (numSlots c : Int) < slots by omega]

end Heap

/-! ### A pool with room -/

theorem replacePending_error {addr : Address} {list : TxList} {tx : PoolTx} {isLocal : Bool}
    {p p' : TxPool} {e : PoolError} (h : replacePending now addr list tx isLocal p = .error e p') :
    p' = p := by
  simp only [replacePending, bind_apply, get_apply] at h
  split_ifs at h
  · simp only [bind_apply, throw_apply, Result.error.injEq] at h
    exact h.2.symm
  · simp at h

theorem addFuture_error {tx : PoolTx} {isLocal loc : Bool} {p p' : TxPool} {e : PoolError}
    (h : addFuture now tx isLocal loc p = .error e p') : enqueueTx now tx isLocal true p = .error e p' := by
  simp only [addFuture, bind_apply] at h
  split at h
  · simp only [get_apply] at h
    split_ifs at h <;> simp at h
  · rename_i heq
    rw [heq, h]

/-- A failed `add` to a pool with room changes nothing but, when the future queue refuses the
transaction, gives its sender an empty queue. -/
theorem add_error_of_room {p p' : TxPool} {tx : PoolTx} {loc : Bool} {e : PoolError}
    (hroom : ¬ p.config.globalSlots + p.config.globalQueue < (p.all.count + numSlots tx).toUInt64)
    (h : add now tx loc p = .error e p') :
    p' = p ∨ tx.fromAddr ∉ p.queue ∧ p' = { p with queue := p.queue.insert tx.fromAddr (newTxList false) } := by
  -- the error of `enqueueTx`, the only one after the checks that writes
  have hqueue : enqueueTx now tx (loc || containsTx p.locals tx) true p = .error e p' →
      p' = p ∨ tx.fromAddr ∉ p.queue ∧ p' = { p with queue := p.queue.insert tx.fromAddr (newTxList false) } := by
    intro he
    rw [(enqueueTx_error he).2]
    by_cases hq : tx.fromAddr ∈ p.queue
    · exact .inl (if_pos hq)
    · exact .inr ⟨hq, if_neg hq⟩
  simp only [add, bind_apply, get_apply] at h
  split_ifs at h
  · -- a known transaction
    simp only [bind_apply, throw_apply, Result.error.injEq] at h
    exact .inl h.2.symm
  cases hv : validateTx p tx (loc || containsTx p.locals tx) with
  | error e' =>
    simp only [hv, bind_apply, throw_apply, Result.error.injEq] at h
    exact .inl h.2.symm
  | ok u =>
    simp only [hv, bind_apply, get_apply] at h
    cases hpend : p.pending.lookup tx.fromAddr with
    | some list =>
      simp only [hpend] at h
      split_ifs at h
      · exact .inl (replacePending_error h)
      · exact hqueue (addFuture_error h)
    | none =>
      simp only [hpend] at h
      exact hqueue (addFuture_error h)

/-! ### Eviction, then rejection -/

/-- A full pool's eviction, for a remote transaction dearer than a live cheapest entry that frees
the slots needed: that entry, and only it, leaves. -/
theorem discardUnderpriced_evicts {p : TxPool} {tx c : PoolTx} {rest : List PoolTx} {a : Address}
    (hheap : p.priced.remotes = c :: rest) (hlive : p.all.remotes.lookup c.hash = some c)
    (hnl : p.all.locals.lookup c.hash = none) (hcheap : c.smokePrice < tx.smokePrice)
    (h0 : 0 < p.all.slots - goInt (p.config.globalSlots + p.config.globalQueue) + numSlots tx)
    (hle : p.all.slots - goInt (p.config.globalSlots + p.config.globalQueue) + numSlots tx ≤ numSlots c)
    (ha : c.fromAddr ≠ a) :
    ∃ p', discardUnderpriced now tx false p = .ok () p' ∧ p'.all.get c.hash = none ∧ Keeps a p p' := by
  have hunder := underpriced_of_live hheap hlive tx
  have hnot : ¬ tx.smokePrice ≤ c.smokePrice := by omega
  have hdiscard := discard_of_live hheap hlive h0 hle false
  -- the heap has popped the entry; the lookup still holds it
  obtain ⟨p', hp', hnone, hk⟩ := @removeTx_evicts now { p with priced := ⟨rest, p.priced.stales⟩ }
    c.hash c a (TxLookup.get_of_remote hnl hlive) ha
  refine ⟨p', ?_, hnone, hk⟩
  -- `Underpriced` says no, `Discard` drops the entry, and the loop removes it
  simp only [discardUnderpriced, bind_apply, get_apply, set_apply, Bool.not_false, ↓reduceIte, hunder]
  simp only [hnot, decide_false, Bool.false_eq_true, ↓reduceIte, bind_apply, get_apply, set_apply]
  simp only [hdiscard, Bool.not_true, Bool.and_false, Bool.false_eq_true, ↓reduceIte]
  simp only [forM_cons_apply, bind_apply, hp', forM_nil_apply]

theorem add_rejects_after_evicting {p : TxPool} {tx c : PoolTx} {rest : List PoolTx} {l : TxList}
    (hknown : p.all.get tx.hash = none) (hremote : containsTx p.locals tx = false)
    (hvalid : validateTx p tx false = .ok ())
    (hfull : p.config.globalSlots + p.config.globalQueue < (p.all.count + numSlots tx).toUInt64)
    (hheap : p.priced.remotes = c :: rest) (hlive : p.all.remotes.lookup c.hash = some c)
    (hnl : p.all.locals.lookup c.hash = none) (hcheap : c.smokePrice < tx.smokePrice)
    (h0 : 0 < p.all.slots - goInt (p.config.globalSlots + p.config.globalQueue) + numSlots tx)
    (hle : p.all.slots - goInt (p.config.globalSlots + p.config.globalQueue) + numSlots tx ≤ numSlots c)
    (hother : c.fromAddr ≠ tx.fromAddr)
    (hpending : p.pending.lookup tx.fromAddr = some l) (hoverlap : l.overlaps tx = true)
    (hbump : (l.add tx p.config.priceBump).1 = false) :
    ∃ p', add now tx false p = .error .replaceUnderpriced p' ∧
      p.all.get c.hash = some c ∧ p'.all.get c.hash = none := by
  obtain ⟨p', hp', hnone, hkeep⟩ :=
    @discardUnderpriced_evicts now p tx c rest tx.fromAddr hheap hlive hnl hcheap h0 hle hother
  -- the eviction left the sender's pending list, which still overlaps
  have hpending' : p'.pending.lookup tx.fromAddr = some l := hkeep.2.1.trans hpending
  have hconfig : p'.config = p.config := hkeep.2.2
  refine ⟨p', ?_, TxLookup.get_of_remote hnl hlive, hnone⟩
  simp only [add, bind_apply, get_apply, hknown, Option.isSome_none, Bool.false_eq_true, ↓reduceIte,
    Bool.false_or, hremote, hvalid, hfull, hp']
  simp only [hpending', hoverlap, ↓reduceIte, replacePending, bind_apply, get_apply, hconfig, hbump,
    Bool.not_false, throw_apply]

/-! ### A full pool of two transactions -/

/-- The account whose replacement is refused. -/
def replacer : Address := Vector.replicate 20 0xAA

/-- The account whose queued transaction is evicted. -/
def evictee : Address := Vector.replicate 20 0xBB

/-- `replacer`'s pending transaction at nonce 0, for 100 a unit of smoke. -/
def pendingTx : PoolTx :=
  { hash := Vector.replicate 32 1, sender := some replacer, nonce := 0, smokePrice := 100,
    smoke := 21000, value := 0, data := [], recipient := some evictee, size := 100 }

/-- `evictee`'s queued transaction, the cheapest of the pool. -/
def queuedTx : PoolTx :=
  { hash := Vector.replicate 32 2, sender := some evictee, nonce := 5, smokePrice := 1,
    smoke := 21000, value := 0, data := [], recipient := some replacer, size := 100 }

/-- A replacement of `pendingTx` for 105, short of the ten percent bump. -/
def underbidTx : PoolTx := { pendingTx with hash := Vector.replicate 32 3, smokePrice := 105 }

/-- `replacer`'s pending list. -/
def replacerPending : TxList := ⟨true, AList.singleton 0 pendingTx⟩

/-- A pool of two slots that holds both transactions as remote ones. -/
def fullPool : TxPool where
  config := ⟨10, 1, 1⟩
  smokePrice := 1
  istanbul := true
  currentState := ⟨fun _ => 10 ^ 18, fun _ => 0, 0⟩
  pendingNonces := fun _ => none
  currentMaxSmoke := 8000000
  locals := ∅
  pending := AList.singleton replacer replacerPending
  queue := AList.singleton evictee ⟨false, AList.singleton 5 queuedTx⟩
  beats := fun _ => none
  all := ⟨2, ∅, (AList.singleton pendingTx.hash pendingTx).insert queuedTx.hash queuedTx⟩
  priced := ⟨[queuedTx, pendingTx], 0⟩

theorem add_rejects_after_evicting_underbid :
    ∃ p', add 0 underbidTx false fullPool = .error .replaceUnderpriced p' ∧
      fullPool.all.get queuedTx.hash = some queuedTx ∧ p'.all.get queuedTx.hash = none :=
  @add_rejects_after_evicting 0 fullPool underbidTx queuedTx [pendingTx] replacerPending
    (by decide) (by decide) rfl (by decide) rfl (by decide) (by decide) (by decide) (by decide)
    (by decide) (by decide) rfl (by decide) (by decide)

/-- The same transactions in a pool with the default room, 4096 pending and 1024 queued slots. -/
def roomyPool : TxPool := { fullPool with config := ⟨10, 4096, 1024⟩ }

theorem add_error_of_room_underbid :
    ∃ p', add 0 underbidTx false roomyPool = .error .replaceUnderpriced p' ∧
      (p' = roomyPool ∨ underbidTx.fromAddr ∉ roomyPool.queue ∧
        p' = { roomyPool with queue := roomyPool.queue.insert underbidTx.fromAddr (newTxList false) }) :=
  have hrun : add 0 underbidTx false roomyPool = .error .replaceUnderpriced roomyPool := rfl
  ⟨roomyPool, hrun, add_error_of_room (by decide) hrun⟩

end Go420coin.Core
