import Anoubis.Apn.Derive
import Anoubis.Lib.BitPrefix
import Anoubis.Pe.Alf

/-! What the host and port lists of a filter rule mean (`pe_addrmatch_host`, `pe_addrmatch_port`).

    A host entry is a prefix of an address, possibly negated; entries of another family do not count. A
    port entry is a port or a range. Both sides of a port comparison are in network byte order: the test
    for equality does not mind, but the tests of a range compare the ports by their low byte first on a
    little endian machine. -/

namespace Anoubis.Pe

open Anoubis.Apn Anoubis.Lib List

/-! ### Hosts -/

/-- The socket address and the entry agree on the first `len` bits. -/
def AgreePrefix (a : Addr) (addr : SockAddr) : Prop :=
  match a.ip with
  | .v4 ip => SamePrefix a.len addr.v4 ip
  | .v6 ip => SamePrefix a.len addr.v6 ip

theorem mask4_eq (len : ℕ) : mask4 len = prefixMask 32 len := by
  refine BitVec.eq_of_getLsbD_eq fun i hi => ?_
  have h64 : i < 64 := by omega
  simp only [mask4, prefixMask, BitVec.truncate_eq_setWidth, BitVec.getLsbD_setWidth,
    BitVec.getLsbD_shiftLeft, BitVec.getLsbD_allOnes, hi, h64, decide_true, Bool.true_and]
  congr 1
  exact decide_eq_decide.mpr (by omega)

/-- Word `j` of the mask covers what is left of the prefix after `j` words. -/
theorem maskWords_eq (k bits : ℕ) : maskWords k bits = (List.range k).map fun j => prefixMask 32 (bits - j * 32) := by
  induction k generalizing bits with
  | zero => rfl
  | succ k ih =>
    rw [range_succ_eq_map, map_cons, map_map, maskWords]
    split
    · rename_i h
      have hhead : prefixMask 32 (bits - 0 * 32) = BitVec.allOnes 32 := by
        rw [prefixMask, Nat.sub_eq_zero_of_le (by omega), BitVec.shiftLeft_zero]
      rw [hhead, ih]
      congr 1
      refine map_congr_left fun j _ => ?_
      rw [Function.comp_apply, Nat.succ_mul, Nat.sub_sub, add_comm]
    · rename_i h
      have hzero : prefixMask 32 0 = 0 := by decide
      have hrest : (List.range k).map ((fun j => prefixMask 32 (bits - j * 32)) ∘ Nat.succ) =
          List.replicate k 0 := by
        refine eq_replicate_iff.mpr ⟨by simp, fun m hm => ?_⟩
        obtain ⟨j, -, rfl⟩ := mem_map.mp hm
        have hj : bits - (j + 1) * 32 = 0 := by omega
        rw [Function.comp_apply, Nat.succ_eq_add_one, hj, hzero]
      rw [hrest, Nat.zero_mul, Nat.sub_zero]
      congr 1
      split
      · rfl
      · rename_i hb
        rw [Nat.eq_zero_of_not_pos hb, hzero]

theorem words6_eq (a : BitVec 128) : words6 a = (List.range 4).map fun j => piece 32 (j * 32) a := rfl

/-- The comparison word by word. -/
theorem compareIp6Mask_iff (a b : BitVec 128) (len : ℕ) : compareIp6Mask a b len = true ↔ SamePrefix len a b := by
  rw [compareIp6Mask]
  split
  · rename_i h
    rw [samePrefix_all h, decide_eq_true_iff]
  · rw [decide_eq_true_iff, samePrefix_pieces (v := 32) (k := 4) (by omega) rfl]
    simp only [words6_eq, maskWords_eq, zipWith_map, zipWith_self, map_inj_left, mem_range, and_prefixMask]

theorem hostMatch_iff (a : Addr) (addr : SockAddr) : hostMatch a addr = true ↔ AgreePrefix a addr := by
  obtain ⟨ip, len⟩ := a
  cases ip with
  | v4 ip =>
    rw [hostMatch, AgreePrefix, decide_eq_true_iff, mask4_eq]
    exact and_prefixMask
  | v6 ip => exact compareIp6Mask_iff _ _ _

/-- An entry that decides in favour of the address. -/
def hostHit (addr : SockAddr) (af : Family) (h : Host) : Bool :=
  decide (Ip.family h.addr.ip = af) && (hostMatch h.addr addr != h.negate)

/-- What the variables `match` and `negate` hold when the list ends is no match. -/
theorem hostLoop_eq (addr : SockAddr) (af : Family) (hosts : List Host) :
    ∀ {m neg : Bool}, (m != neg) = false → hostLoop addr af m neg hosts = hosts.any (hostHit addr af) := by
  induction hosts with
  | nil =>
    intro m neg h
    rw [hostLoop, any_nil]
    cases m <;> cases neg <;> simp_all
  | cons hp hs ih =>
    intro m neg h
    rw [hostLoop, any_cons]
    by_cases hf : Ip.family hp.addr.ip = af
    · rw [if_neg (not_not_intro hf)]
      have hhit : hostHit addr af hp = (hostMatch hp.addr addr != hp.negate) := by simp [hostHit, hf]
      rw [hhit]
      cases hm : hostMatch hp.addr addr <;> cases hn : hp.negate
      · simpa using ih rfl
      · simp
      · simp
      · simpa using ih rfl
    · have hhit : hostHit addr af hp = false := by simp [hostHit, hf]
      rw [if_pos hf, hhit, Bool.false_or]
      exact ih h

/-- A host list matches iff it is empty or one of its entries of the family of the socket agrees with
    the address on its prefix, or does not and is negated. -/
theorem peAddrmatchHost_iff (host : List Host) (addr : SockAddr) (af : Family) :
    peAddrmatchHost host addr af = true ↔
      host = [] ∨ ∃ h ∈ host, Ip.family h.addr.ip = af ∧
        Xor (AgreePrefix h.addr addr) (h.negate = true) := by
  rw [peAddrmatchHost]
  cases host with
  | nil => simp
  | cons hp hs =>
    rw [List.isEmpty_cons, if_neg Bool.false_ne_true, hostLoop_eq _ _ _ rfl, List.any_eq_true]
    simp only [reduceCtorEq, false_or]
    refine exists_congr fun h => and_congr_right fun _ => ?_
    rw [hostHit, Bool.and_eq_true, decide_eq_true_iff, ← hostMatch_iff]
    refine and_congr_right fun _ => ?_
    cases hostMatch h.addr addr <;> cases h.negate <;> simp [Xor]

/-! ### Ports -/

/-- The byte order of the machine. -/
inductive Endian where
  | little
  | big
  deriving DecidableEq

/-- `ntohs`, which is also `htons`. -/
def Endian.ntohs : Endian → ℕ → ℕ
  | .little, n => swap16 n
  | .big, n => n

/-- What the parser lets into a port list: 16-bit values, and ranges in ascending order. -/
structure Accepted (e : Endian) (pp : Port) : Prop where
  port : pp.port < 2 ^ 16
  port2 : pp.port2 < 2 ^ 16
  range : pp.port2 ≠ 0 → e.ntohs pp.port ≤ e.ntohs pp.port2

/-- The port `p`, in host byte order, is the one of the entry or lies in its range. -/
def PortMeans (e : Endian) (pp : Port) (p : ℕ) : Prop :=
  if pp.port2 = 0 then p = e.ntohs pp.port else e.ntohs pp.port ≤ p ∧ p ≤ e.ntohs pp.port2

/-- The order of two ports that are compared by the low byte first. -/
def LowFirst (a b : ℕ) : Prop := a % 256 < b % 256 ∨ a % 256 = b % 256 ∧ a / 256 ≤ b / 256

/-- The list decides alike for both orders of the bytes: the machine is big endian, the port is listed
    as such, or it is in a range iff it is in a range that is read by the low byte first. -/
def OrderAgrees (e : Endian) (ports : List Port) (p : ℕ) : Prop :=
  e = .big ∨ (∃ pp ∈ ports, pp.port2 = 0 ∧ p = e.ntohs pp.port) ∨
    ((∃ pp ∈ ports, pp.port2 ≠ 0 ∧ e.ntohs pp.port ≤ p ∧ p ≤ e.ntohs pp.port2) ↔
      ∃ pp ∈ ports, pp.port2 ≠ 0 ∧ LowFirst (e.ntohs pp.port) p ∧ LowFirst p (e.ntohs pp.port2))

/-- Swapping exchanges the bytes. -/
theorem swap16_bytes {a : ℕ} (h : a < 2 ^ 16) : swap16 a % 256 = a / 256 ∧ swap16 a / 256 = a % 256 := by
  simp only [swap16]
  omega

theorem swap16_le {a b : ℕ} (ha : a < 2 ^ 16) (hb : b < 2 ^ 16) : a ≤ b ↔ LowFirst (swap16 a) (swap16 b) := by
  rw [LowFirst, (swap16_bytes ha).1, (swap16_bytes ha).2, (swap16_bytes hb).1, (swap16_bytes hb).2]
  omega

theorem Endian.ntohs_inj (e : Endian) {a b : ℕ} (ha : a < 2 ^ 16) (hb : b < 2 ^ 16) :
    e.ntohs a = e.ntohs b ↔ a = b := by
  cases e with
  | big => rfl
  | little =>
    simp only [Endian.ntohs, swap16]
    omega

/-- A list entry of the code: the test of one entry on the bytes as they are. -/
def portHit (pp : Port) (p : ℕ) : Prop :=
  if pp.port2 = 0 then p = pp.port else pp.port ≤ p ∧ p ≤ pp.port2

theorem peAddrmatchPort_iff {ports : List Port} (hne : ports ≠ []) (addr : SockAddr) {af : Family}
    (haf : af ≠ .other) : peAddrmatchPort ports addr af = true ↔ ∃ pp ∈ ports, portHit pp addr.port := by
  rw [peAddrmatchPort, if_neg (by simpa using hne), any_eq_true]
  refine exists_congr fun pp => and_congr_right fun _ => ?_
  rw [portHit]
  cases af with
  | other => exact absurd rfl haf
  | inet => by_cases h : pp.port2 = 0 <;> simp [h]
  | inet6 => by_cases h : pp.port2 = 0 <;> simp [h]

/-- Single ports and ranges apart. -/
theorem exists_single_or_range {ports : List Port} {single range : Port → Prop} :
    (∃ pp ∈ ports, if pp.port2 = 0 then single pp else range pp) ↔
      (∃ pp ∈ ports, pp.port2 = 0 ∧ single pp) ∨ ∃ pp ∈ ports, pp.port2 ≠ 0 ∧ range pp := by
  rw [← exists_or]
  refine exists_congr fun pp => ?_
  by_cases h : pp.port2 = 0 <;> simp [h]

theorem either_agree {s r r' : Prop} : ((s ∨ r') ↔ (s ∨ r)) ↔ s ∨ (r ↔ r') := by
  by_cases hs : s
  · simp [hs]
  · simp only [hs, false_or]
    exact iff_comm

/-- The code finds the ports that the policy means, for this list and this port, iff the order of the
    bytes makes no difference. -/
theorem port_match_iff {e : Endian} {ports : List Port} {addr : SockAddr} {af : Family}
    (hne : ports ≠ []) (hacc : ∀ pp ∈ ports, Accepted e pp) (hp : addr.port < 2 ^ 16)
    (haf : af ≠ .other) :
    (peAddrmatchPort ports addr af = true ↔ ∃ pp ∈ ports, PortMeans e pp (e.ntohs addr.port)) ↔
      OrderAgrees e ports (e.ntohs addr.port) := by
  rw [peAddrmatchPort_iff hne addr haf]
  simp only [portHit, PortMeans, exists_single_or_range, OrderAgrees]
  have hsingle : (∃ pp ∈ ports, pp.port2 = 0 ∧ addr.port = pp.port) ↔
      ∃ pp ∈ ports, pp.port2 = 0 ∧ e.ntohs addr.port = e.ntohs pp.port :=
    exists_congr fun pp => and_congr_right fun hpp => and_congr_right fun _ =>
      (e.ntohs_inj hp (hacc pp hpp).port).symm
  rw [hsingle]
  cases e with
  | big => simp [Endian.ntohs]
  | little =>
    have hrange : (∃ pp ∈ ports, pp.port2 ≠ 0 ∧ pp.port ≤ addr.port ∧ addr.port ≤ pp.port2) ↔
        ∃ pp ∈ ports, pp.port2 ≠ 0 ∧ LowFirst (swap16 pp.port) (swap16 addr.port) ∧
          LowFirst (swap16 addr.port) (swap16 pp.port2) :=
      exists_congr fun pp => and_congr_right fun hpp => and_congr_right fun _ =>
        and_congr (swap16_le (hacc pp hpp).port hp) (swap16_le hp (hacc pp hpp).port2)
    rw [hrange]
    simp only [Endian.ntohs, reduceCtorEq, false_or]
    exact either_agree

/-- The range 80 - 90 and port 85. -/
theorem port_match_iff_low :
    (peAddrmatchPort [⟨swap16 80, swap16 90⟩] ⟨0, 0, swap16 85⟩ .inet = true ↔
      ∃ pp ∈ [(⟨swap16 80, swap16 90⟩ : Port)],
        PortMeans .little pp (Endian.little.ntohs (⟨0, 0, swap16 85⟩ : SockAddr).port)) ↔
    OrderAgrees .little [⟨swap16 80, swap16 90⟩]
      (Endian.little.ntohs (⟨0, 0, swap16 85⟩ : SockAddr).port) := by
  have hacc : Accepted .little ⟨swap16 80, swap16 90⟩ := by constructor <;> decide
  exact port_match_iff (by simp) (fun pp hpp => by rwa [List.mem_singleton.mp hpp]) (by decide)
    (by decide)

/-- The range 1000 - 2000 does not match port 1500 on a little endian machine. -/
theorem port_1500_missed :
    ¬ ∀ (e : Endian) (ports : List Port) (addr : SockAddr) (af : Family), ports ≠ [] →
      (∀ pp ∈ ports, Accepted e pp) → addr.port < 2 ^ 16 → af ≠ .other →
        (peAddrmatchPort ports addr af = true ↔
          ∃ pp ∈ ports, PortMeans e pp (e.ntohs addr.port)) := by
  intro h
  have hacc : Accepted .little ⟨toPort 1000, toPort 2000⟩ := by constructor <;> decide
  have hin : PortMeans .little ⟨toPort 1000, toPort 2000⟩ (swap16 (swap16 1500)) := by
    rw [PortMeans, if_neg (by decide)]
    decide
  have hmatch := (h .little [⟨toPort 1000, toPort 2000⟩] ⟨0, 0, swap16 1500⟩ .inet (by simp)
    (fun pp hpp => by rwa [List.mem_singleton.mp hpp]) (by decide) (by decide)).mpr
    ⟨_, List.mem_singleton.mpr rfl, hin⟩
  exact absurd hmatch (by decide)

end Anoubis.Pe
