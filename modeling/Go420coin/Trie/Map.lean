import Go420coin.Trie.Update
import Go420coin.Lib.Store

set_option linter.dupNamespace false

/-!
# A trie is a map from keys to values

`Trie.contents` is what a trie holds: for each byte-string key, the value its root stands for at the
key's hex form.  On a trie whose root is canonical, `Get` returns `contents` and leaves the trie as
it was; `Update` stores a non-empty value, `Update` with an empty value and `Delete` remove the key,
and each keeps the root canonical.  The database is never read: the fuel the `Trie` methods give is
not used up.

So every trie built from the empty trie by updates and deletes is canonical, and holds at each key
the value of the last operation on that key (`runOps_spec`, `get_runOps`).
-/

namespace Go420coin.Trie

open ListMap

namespace Node

variable (db : Database)

theorem tryGet_eq (fuel : Nat) {n : Node} (hn : Canonical n) {key : List UInt8} (hk : HexKey key) :
    tryGet db fuel n key 0 = .ok (n.lookup key, n, false) := by
  cases fuel <;> exact tryGetWith_eq hn (by simpa using hk)

theorem insert_spec (fuel : Nat) {n : Node} (hn : Canonical n) {key : List UInt8} (hk : HexKey key)
    (path v : List UInt8) :
    ∃ dirty n', insert db fuel n path key (.value v) = .ok (dirty, n') ∧ Canonical n' ∧
      n'.lookup = Function.update n.lookup key (some v) := by
  cases fuel with
  | zero =>
    obtain ⟨dirty, n', h, hc, -, hl⟩ := insertWith_spec _ hn hk path v
    exact ⟨dirty, n', h, hc, hl⟩
  | succ fuel =>
    obtain ⟨dirty, n', h, hc, -, hl⟩ := insertWith_spec _ hn hk path v
    exact ⟨dirty, n', h, hc, hl⟩

theorem delete_spec (fuel : Nat) {n : Node} (hn : Canonical n) {key : List UInt8} (hk : HexKey key)
    (path : List UInt8) :
    ∃ dirty n', delete db fuel n path key = .ok (dirty, n') ∧ Canonical n' ∧
      n'.lookup = Function.update n.lookup key none := by
  cases fuel with
  | zero =>
    obtain ⟨dirty, n', h, hc, -, hl⟩ := deleteWith_spec _ hn hk path
    exact ⟨dirty, n', h, hc, hl⟩
  | succ fuel =>
    obtain ⟨dirty, n', h, hc, -, hl⟩ := deleteWith_spec _ hn hk path
    exact ⟨dirty, n', h, hc, hl⟩

end Node

/-! ### The trie as a map -/

/-- An operation on a trie: `Update` of a key with a value, or `Delete` of a key. -/
inductive Op
  | update (key value : List UInt8)
  | delete (key : List UInt8)
  deriving Repr, DecidableEq

namespace Op

/-- The key an operation acts on. -/
def key : Op → List UInt8
  | .update k _ => k
  | .delete k => k

/-- What an operation leaves at its key: the value of an update, nothing for an update with an empty
value or a delete. -/
def written : Op → Option (List UInt8)
  | .update _ v => if v = [] then none else some v
  | .delete _ => none

end Op

/-- The value at `key` after the operations `ops`, as the last of them on `key` leaves it; nothing
if none acts on `key`. -/
def lastValue (ops : List Op) (key : List UInt8) : Option (List UInt8) :=
  match (ops.filter fun op => op.key = key).getLast? with
  | some op => op.written
  | none => none

namespace Trie

/-- What a trie holds at each key. -/
def contents (t : Trie) (key : List UInt8) : Option (List UInt8) :=
  t.root.lookup (keybytesToHex key)

/-- Carry out one operation. -/
def apply (t : Trie) : Op → Trie
  | .update k v => t.update k v
  | .delete k => t.delete k

/-- Carry out the operations in order. -/
def runOps (t : Trie) (ops : List Op) : Trie :=
  ops.foldl apply t

@[simp] theorem runOps_nil (t : Trie) : t.runOps [] = t := rfl

@[simp] theorem runOps_cons (t : Trie) (op : Op) (ops : List Op) :
    t.runOps (op :: ops) = (t.apply op).runOps ops := rfl

variable {t : Trie}

theorem tryGet_eq (h : Canonical t.root) (key : List UInt8) : t.tryGet key = (.ok (t.contents key), t) := by
  simp [tryGet, Node.tryGet_eq t.db _ h (hexKey_keybytesToHex key), contents]

theorem get_eq (h : Canonical t.root) (key : List UInt8) : t.get key = (t.contents key, t) := by
  simp [get, tryGet_eq h]

theorem delete_spec (h : Canonical t.root) (key : List UInt8) :
    Canonical (t.delete key).root ∧
      (t.delete key).root.lookup = Function.update t.root.lookup (keybytesToHex key) none := by
  obtain ⟨dirty, n', hres, hc, hl⟩ :=
    Node.delete_spec t.db ((keybytesToHex key).length + 1) h (hexKey_keybytesToHex key) []
  have ht : t.delete key = { t with root := n', unhashed := t.unhashed + 1 } := by
    simp [delete, tryDelete, hres]
  rw [ht]
  exact ⟨hc, hl⟩

theorem update_spec (h : Canonical t.root) (key value : List UInt8) :
    Canonical (t.update key value).root ∧
      (t.update key value).root.lookup =
        Function.update t.root.lookup (keybytesToHex key) (Op.update key value).written := by
  by_cases hv : value = []
  · -- an empty value deletes the key
    obtain ⟨dirty, n', hres, hc, hl⟩ :=
      Node.delete_spec t.db ((keybytesToHex key).length + 1) h (hexKey_keybytesToHex key) []
    have ht : t.update key value = { t with root := n', unhashed := t.unhashed + 1 } := by
      simp [update, tryUpdate, hv, hres]
    rw [ht]
    exact ⟨hc, by simpa [Op.written, hv] using hl⟩
  · obtain ⟨dirty, n', hres, hc, hl⟩ :=
      Node.insert_spec t.db ((keybytesToHex key).length + 1) h (hexKey_keybytesToHex key) [] value
    have ht : t.update key value = { t with root := n', unhashed := t.unhashed + 1 } := by
      simp [update, tryUpdate, hv, hres]
    rw [ht]
    exact ⟨hc, by simpa [Op.written, hv] using hl⟩

theorem apply_spec (h : Canonical t.root) (op : Op) :
    Canonical (t.apply op).root ∧
      (t.apply op).root.lookup = Function.update t.root.lookup (keybytesToHex op.key) op.written := by
  cases op with
  | update k v => exact update_spec h k v
  | delete k => exact delete_spec h k

/-- A run of operations keeps the root canonical and writes, at the hex form of each operation's
key, what the operation leaves there. -/
theorem runOps_spec (ops : List Op) (h : Canonical t.root) :
    Canonical (t.runOps ops).root ∧
      (t.runOps ops).root.lookup =
        Store.applyWrites (fun op => keybytesToHex op.key) Op.written t.root.lookup ops := by
  induction ops generalizing t with
  | nil => exact ⟨h, rfl⟩
  | cons op ops ih =>
    obtain ⟨hc, hl⟩ := apply_spec h op
    obtain ⟨hc', hl'⟩ := ih hc
    refine ⟨hc', ?_⟩
    rw [runOps_cons, hl', hl]
    rfl

end Trie

/-- The last operation on a key is the last one whose key has the same hex form. -/
theorem lastValue_eq_applyWrites (ops : List Op) (key : List UInt8) :
    lastValue ops key =
      Store.applyWrites (fun op => keybytesToHex op.key) Op.written (fun _ => none) ops (keybytesToHex key) := by
  rw [Store.applyWrites_apply, lastValue]
  simp only [keybytesToHex_injective.eq_iff]
  cases (ops.filter fun op => op.key = key).getLast? <;> rfl

/-- Map semantics: after any run of updates and deletes on an empty trie, `Get` of a key returns the
value of the last operation on that key, and nothing if that was a delete, an update with an empty
value, or if there was none. -/
theorem get_runOps (db : Database) (ops : List Op) (key : List UInt8) :
    (((Trie.empty db).runOps ops).get key).1 = lastValue ops key := by
  obtain ⟨hc, hl⟩ := Trie.runOps_spec (t := Trie.empty db) ops Canonical.nil
  rw [Trie.get_eq hc, Trie.contents, hl, lastValue_eq_applyWrites]
  rfl

example : (((Trie.empty ⟨fun _ => none⟩).runOps [.update [1] [2], .update [1, 2] [3], .delete [1]]).get
    [1, 2]).1 = some [3] := by
  decide

end Go420coin.Trie
