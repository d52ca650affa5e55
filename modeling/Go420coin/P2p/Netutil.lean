import Mathlib.Data.List.Basic
import Mathlib.Logic.Function.Basic

/-!
# Network ranges (`p2p/netutil/net.go`)

`IsLAN` tells loopback and private addresses apart, and `DistinctNetSet` counts addresses by
subnet, refusing one more than `Limit` addresses of a subnet.  A subnet is the address's key: its
family byte and its first `Subnet` bits.  An IP is a byte string as `net.IP` is, four bytes or
sixteen; the parts of `net.IP` these functions use (`To4`, `Equal`, `IPNet.Contains` on the nets that
`ParseCIDR` builds, `IsLoopback`) are written out here.
-/

namespace Go420coin.P2p

/-- `net.IP`. -/
abbrev IP := List UInt8

/-- `IP.To4`: a four-byte address, or the IPv4 address mapped into sixteen bytes. -/
def to4 (ip : IP) : Option IP :=
  if ip.length = 4 then some ip
  else if ip.length = 16 ∧ ip.take 10 = List.replicate 10 0 ∧ ip[10]? = some 0xff ∧ ip[11]? = some 0xff then
    some (ip.drop 12)
  else none

/-- `v4InV6Prefix`. -/
def v4InV6Prefix : IP := List.replicate 10 0 ++ [0xff, 0xff]

/-- `IP.Equal`: the same bytes, or an IPv4 address and its sixteen-byte form. -/
def ipEqual (ip x : IP) : Bool :=
  if ip.length = x.length then ip == x
  else if ip.length = 4 ∧ x.length = 16 then x.take 12 == v4InV6Prefix && ip == x.drop 12
  else if ip.length = 16 ∧ x.length = 4 then ip.take 12 == v4InV6Prefix && ip.drop 12 == x
  else false

/-- Byte `i` of the mask of a `bits`-long prefix. -/
def maskByte (bits i : Nat) : UInt8 :=
  if 8 * (i + 1) ≤ bits then 0xff
  else if bits ≤ 8 * i then 0
  else ~~~((0xff : UInt8) >>> (bits % 8).toUInt8)

/-- A net as `ParseCIDR` builds it: the masked address, four bytes for IPv4, and the prefix length. -/
structure IPNet where
  ip : IP
  bits : Nat

/-- `IPNet.Contains`. -/
def IPNet.contains (n : IPNet) (ip : IP) : Bool :=
  let ip := (to4 ip).getD ip
  ip.length == n.ip.length &&
    (List.range ip.length).all fun i => (n.ip.getD i 0 &&& maskByte n.bits i) == (ip.getD i 0 &&& maskByte n.bits i)

/-- `lan4`: "this" network and the IPv4 private-use ranges. -/
def lan4 : List IPNet := [⟨[0, 0, 0, 0], 8⟩, ⟨[10, 0, 0, 0], 8⟩, ⟨[172, 16, 0, 0], 12⟩, ⟨[192, 168, 0, 0], 16⟩]

/-- `lan6`: the IPv6 link-local and unique-local ranges. -/
def lan6 : List IPNet := [⟨0xfe :: 0x80 :: List.replicate 14 0, 10⟩, ⟨0xfc :: List.replicate 15 0, 7⟩]

/-- `IP.IsLoopback`. -/
def isLoopback (ip : IP) : Bool :=
  match to4 ip with
  | some v4 => v4.head? == some 127
  | none => ip == List.replicate 15 0 ++ [1]

/-- `IsLAN`. -/
def isLAN (ip : IP) : Bool :=
  isLoopback ip ||
    match to4 ip with
    | some v4 => lan4.any (·.contains v4)
    | none => lan6.any (·.contains ip)

/-- `DistinctNetSet`: at most `limit` addresses in each subnet of `subnet` bits.  A subnet's count
is `0` when it has no entry in `members`. -/
structure DistinctNetSet where
  subnet : Nat
  limit : Nat
  members : List UInt8 → Nat

namespace DistinctNetSet

/-- `key`: `'4'` or `'6'`, then the first `subnet` bits of the address. -/
def key (s : DistinctNetSet) (ip : IP) : List UInt8 :=
  let (typ, ip) := match to4 ip with
    | some v4 => ((0x34 : UInt8), v4)
    | none => (0x36, ip)
  let bits := min s.subnet (ip.length * 8)
  let nb := bits / 8
  let mask := ~~~((0xff : UInt8) >>> (bits % 8).toUInt8)
  typ :: ip.take nb ++ (if nb < ip.length ∧ mask ≠ 0 then [ip.getD nb 0 &&& mask] else [])

/-- `Add`: the set with the address counted, unless its subnet is at the limit. -/
def add (s : DistinctNetSet) (ip : IP) : Bool × DistinctNetSet :=
  let k := s.key ip
  if s.members k < s.limit then (true, { s with members := Function.update s.members k (s.members k + 1) })
  else (false, s)

/-- `Remove`: one address less in the subnet, if it has any. -/
def remove (s : DistinctNetSet) (ip : IP) : DistinctNetSet :=
  let k := s.key ip
  { s with members := Function.update s.members k (s.members k - 1) }

variable (s : DistinctNetSet) (ip : IP)

@[simp] theorem key_subnet_eq {s' : DistinctNetSet} (h : s'.subnet = s.subnet) : s'.key ip = s.key ip := by
  simp [key, h]

theorem add_of_lt (h : s.members (s.key ip) < s.limit) :
    s.add ip = (true, { s with members := Function.update s.members (s.key ip) (s.members (s.key ip) + 1) }) := by
  simp [add, h]

theorem add_of_le (h : s.limit ≤ s.members (s.key ip)) : s.add ip = (false, s) := by
  simp [add, Nat.not_lt.mpr h]

@[simp] theorem add_subnet : (s.add ip).2.subnet = s.subnet := by
  by_cases h : s.members (s.key ip) < s.limit
  · rw [add_of_lt s ip h]
  · rw [add_of_le s ip (Nat.le_of_not_lt h)]

@[simp] theorem add_limit : (s.add ip).2.limit = s.limit := by
  by_cases h : s.members (s.key ip) < s.limit
  · rw [add_of_lt s ip h]
  · rw [add_of_le s ip (Nat.le_of_not_lt h)]

@[simp] theorem remove_subnet : (s.remove ip).subnet = s.subnet := rfl

@[simp] theorem remove_limit : (s.remove ip).limit = s.limit := rfl

/-- What `Add` does to every subnet's count: one more in the address's subnet if it was added. -/
theorem members_add (k : List UInt8) :
    (s.add ip).2.members k = s.members k + if (s.add ip).1 ∧ k = s.key ip then 1 else 0 := by
  by_cases h : s.members (s.key ip) < s.limit
  · rw [add_of_lt s ip h]
    by_cases hk : k = s.key ip
    · subst hk; simp
    · simp [hk]
  · rw [add_of_le s ip (Nat.le_of_not_lt h)]
    simp

theorem members_remove (k : List UInt8) :
    (s.remove ip).members k = if k = s.key ip then s.members k - 1 else s.members k := by
  by_cases hk : k = s.key ip
  · subst hk; simp [remove]
  · simp [remove, hk]

end DistinctNetSet

end Go420coin.P2p
