import XrayCore.Net.Address

/-!
# The addresses of a pool

An address of a pool is the network's address and an offset, which is part of the time.
-/

namespace XrayCore.Dns

open Lib Net List

inductive IpNet
  | v4 (addr : Ipv4Addr) (prefixLen : Fin 33)
  | v6 (addr : Ipv6Addr) (prefixLen : Fin 129)

def number : IpAddr → Nat
  | .v4 addr => beNat addr.octets
  | .v6 addr => beNat addr.octets

def subnetRooms : IpNet → Nat
  | .v4 _ prefixLen => 32 - prefixLen
  | .v6 _ prefixLen => 128 - prefixLen

namespace IpNet

def network (net : IpNet) : IpAddr :=
  let base := fun n => n / 2 ^ subnetRooms net * 2 ^ subnetRooms net
  match net with
  | .v4 addr _ => .v4 ⟨beBytes 4 (base (beNat addr.octets)), length_beBytes ..⟩
  | .v6 addr _ => .v6 ⟨beBytes 16 (base (beNat addr.octets)), length_beBytes ..⟩

def contains (net : IpNet) (ip : IpAddr) : Bool :=
  let between := number net.network ≤ number ip ∧
    number ip ≤ number net.network + (2 ^ subnetRooms net - 1)
  match net, ip with
  | .v4 .., .v4 _ => between
  | .v6 .., .v6 _ => between
  | _, _ => false

end IpNet

/-- `(1u64 << rooms) - 1` without a check: the shift is by `rooms` modulo 64. -/
def mask (rooms : Nat) : UInt64 := (1 <<< UInt64.ofNat rooms) - 1

def next (net : IpNet) (ts : UInt64) : UInt64 := (ts + 1) &&& mask (subnetRooms net)

def addLoop : Nat → Bytes → UInt64 → Bytes
  | 0, b, _ => b
  | i + 1, b, carry =>
    let pos := 8 + i
    let cur := (byteAt b pos).toUInt64
    let sum := cur + (carry &&& 0xff)
    addLoop i (b.set pos sum.toUInt8) ((carry >>> 8) + (sum >>> 8))

def addToBeBytes (b : Bytes) (add : UInt64) : Bytes := addLoop 8 b add

theorem length_addLoop (i : Nat) (b : Bytes) (carry : UInt64) :
    (addLoop i b carry).length = b.length := by
  induction i generalizing b carry with
  | zero => rfl
  | succ i ih =>
    unfold addLoop
    rw [ih, length_set]

theorem length_addToBeBytes (addr : Ipv6Addr) (ts : UInt64) :
    (addToBeBytes addr.octets ts).length = 16 :=
  (length_addLoop ..).trans addr.length_octets

def tsToIp (net : IpNet) (ts : UInt64) : IpAddr :=
  match net.network with
  | .v4 addr => .v4 ⟨be32 (u32At addr.octets 0 + ts.toUInt32), rfl⟩
  | .v6 addr => .v6 ⟨addToBeBytes addr.octets ts, length_addToBeBytes addr ts⟩

/-- The addresses that the clock can select: without a check not all, if more than 64 bits
are behind the prefix. -/
def span (net : IpNet) : Nat := 2 ^ (subnetRooms net % 64)

theorem span_pos (net : IpNet) : 0 < span net := Nat.two_pow_pos _

theorem toNat_mask (rooms : Nat) : (mask rooms).toNat = 2 ^ (rooms % 64) - 1 := by
  have hlt : 2 ^ (rooms % 64) < 2 ^ 64 :=
    Nat.pow_lt_pow_right (by decide) (Nat.mod_lt _ (by decide))
  have hs : ((1 : UInt64) <<< UInt64.ofNat rooms).toNat = 2 ^ (rooms % 64) := by
    rw [UInt64.toNat_shiftLeft, UInt64.toNat_ofNat', Nat.mod_mod_of_dvd _ (by decide : 64 ∣ 2 ^ 64)]
    exact (congrArg (· % 2 ^ 64) (Nat.one_shiftLeft _)).trans (Nat.mod_eq_of_lt hlt)
  have hle : 1 ≤ (1 : UInt64) <<< UInt64.ofNat rooms := by
    rw [UInt64.le_iff_toNat_le, hs]
    exact Nat.one_le_two_pow
  rw [mask, UInt64.toNat_sub_of_le _ _ hle, hs]
  rfl

theorem toNat_and_mask (x : UInt64) (net : IpNet) :
    (x &&& mask (subnetRooms net)).toNat = x.toNat % span net := by
  rw [UInt64.toNat_and, toNat_mask, Nat.and_two_pow_sub_one_eq_mod, span]

variable {b : Bytes}

theorem take_succ_drop {i : Nat} (h : 8 + i < b.length) :
    (b.drop 8).take (i + 1) = (b.drop 8).take i ++ [byteAt b (8 + i)] := by
  have hi : i < (b.drop 8).length := by
    rw [length_drop]
    omega
  rw [take_succ_eq_append_getElem hi, getElem_drop, byteAt, ← getElem_eq_getD (h := h)]

theorem sum_eq (x : UInt8) (carry : UInt64) (n : Nat) :
    (x.toUInt64 + (carry &&& 0xff)).toUInt8 = UInt8.ofNat (n * 256 + x.toNat + carry.toNat) ∧
      n + ((carry >>> 8) + ((x.toUInt64 + (carry &&& 0xff)) >>> 8)).toNat =
        (n * 256 + x.toNat + carry.toNat) / 256 := by
  have hx := x.toNat_lt
  have hc := carry.toNat_lt
  have hl : (carry &&& 0xff).toNat = carry.toNat % 256 := by
    exact Nat.and_two_pow_sub_one_eq_mod _ 8
  have hsu : (x.toUInt64 + (carry &&& 0xff)).toNat = x.toNat + carry.toNat % 256 := by
    rw [UInt64.toNat_add, hl, UInt8.toNat_toUInt64]
    exact Nat.mod_eq_of_lt (by omega)
  have hs : ∀ y : UInt64, (y >>> 8).toNat = y.toNat / 256 := fun y =>
    (UInt64.toNat_shiftRight ..).trans (Nat.shiftRight_eq_div_pow _ 8)
  constructor
  · rw [← UInt8.toNat_inj, UInt64.toNat_toUInt8, UInt8.toNat_ofNat', hsu]
    omega
  · rw [UInt64.toNat_add, hs, hs, hsu, Nat.mod_eq_of_lt (by omega)]
    omega

theorem addLoop_eq (i : Nat) (h : 8 + i ≤ b.length) (carry : UInt64) : addLoop i b carry =
      b.take 8 ++ beBytes i (beNat ((b.drop 8).take i) + carry.toNat) ++ b.drop (8 + i) := by
  induction i generalizing b carry with
  | zero => simp [addLoop, beBytes]
  | succ i ih =>
    have hp : 8 + i < b.length := h
    obtain ⟨hb, hc⟩ := sum_eq (byteAt b (8 + i)) carry (beNat ((b.drop 8).take i))
    have hs : ∀ x, (b.set (8 + i) x).drop (8 + i) = x :: b.drop (8 + (i + 1)) := by
      intro x
      rw [drop_set, if_neg (lt_irrefl _), Nat.sub_self, drop_eq_byteAt_cons hp]
      rfl
    have ht : ∀ x, ((b.set (8 + i) x).drop 8).take i = (b.drop 8).take i := by
      intro x
      rw [drop_set, if_neg (by omega), take_set_of_le (by omega)]
    unfold addLoop
    rw [ih (by rw [length_set]; omega), beBytes, take_succ_drop hp, beNat_concat, hs,
      ht, take_set_of_le (Nat.le_add_right 8 i), hc, hb]
    simp

theorem addToBeBytes_eq (h : b.length = 16) (add : UInt64) :
    addToBeBytes b add = b.take 8 ++ beBytes 8 (beNat (b.drop 8) + add.toNat) := by
  have ht : (b.drop 8).take 8 = b.drop 8 := take_of_length_le (by simp [h])
  rw [addToBeBytes, addLoop_eq 8 h.ge, ht, drop_of_length_le h.le, append_nil]

theorem addToBeBytes_zero (h : b.length = 16) : addToBeBytes b 0 = b := by
  have hl : (b.drop 8).length = 8 := by simp [h]
  have hb := beBytes_beNat (b.drop 8)
  rw [hl] at hb
  rw [addToBeBytes_eq h, UInt64.toNat_zero, add_zero, hb, take_append_drop]

theorem beNat_addToBeBytes (h : b.length = 16) (ha : beNat b % 2 ^ 64 + add.toNat < 2 ^ 64) :
    beNat (addToBeBytes b add) = beNat b + add.toNat := by
  have hl : (b.drop 8).length = 8 := by simp [h]
  have hlo := beNat_lt (b.drop 8)
  have hs := beNat_append (b.take 8) (b.drop 8)
  rw [hl] at hlo hs
  rw [take_append_drop] at hs
  rw [addToBeBytes_eq h, beNat_append, length_beBytes, beNat_beBytes]
  omega

theorem add_lt_two_pow (hk : k ≤ w) (hd : 2 ^ k ∣ m) (hm : m < 2 ^ w)
    (ht : t < 2 ^ k) : m + t < 2 ^ w := by
  obtain ⟨q, rfl⟩ := hd
  obtain ⟨c, hc⟩ := pow_dvd_pow 2 hk
  rw [hc] at hm ⊢
  have hq : q + 1 ≤ c := Nat.lt_of_mul_lt_mul_left hm
  calc 2 ^ k * q + t < 2 ^ k * (q + 1) := by rw [mul_add, mul_one]; omega
    _ ≤ 2 ^ k * c := Nat.mul_le_mul_left _ hq

section

variable {net : IpNet} {ts : UInt64}

theorem span_dvd : span net ∣ 2 ^ subnetRooms net := pow_dvd_pow 2 (Nat.mod_le _ _)

theorem beNat_network (h : b.length = len) (rooms : Nat) :
    beNat (beBytes len (beNat b / 2 ^ rooms * 2 ^ rooms)) = beNat b / 2 ^ rooms * 2 ^ rooms := by
  rw [beNat_beBytes, Nat.mod_eq_of_lt]
  exact (Nat.div_mul_le_self ..).trans_lt (h ▸ beNat_lt b)

theorem span_dvd_network : span net ∣ number net.network := by
  refine span_dvd.trans ?_
  cases net with
  | v4 addr _ | v6 addr _ =>
    rw [IpNet.network, number, beNat_network addr.length_octets]
    exact dvd_mul_left ..

theorem toNat_u32At (h : b.length = 4) : (u32At b 0).toNat = beNat b := by
  rw [← beNat_be32, be32_u32At h.ge, drop_zero, take_of_length_le h.le]

theorem tsToIp_zero : tsToIp net 0 = net.network := by
  have hv4 : ∀ addr : Ipv4Addr, be32 (u32At addr.octets 0 + (0 : UInt64).toUInt32) =
      addr.octets := by
    intro addr
    have hl := addr.length_octets
    have hz : (0 : UInt64).toUInt32 = 0 := rfl
    rw [hz, UInt32.add_zero, be32_u32At hl.ge, drop_zero, take_of_length_le hl.le]
  unfold tsToIp
  cases net.network with
  | v4 addr => simp only [hv4]
  | v6 addr => simp [addToBeBytes_zero addr.length_octets]

theorem number_tsToIp (h : ts.toNat < span net) :
    number (tsToIp net ts) = number net.network + ts.toNat := by
  have hd : span net ∣ number net.network := span_dvd_network
  cases net with
  | v4 addr pl =>
    have hle : subnetRooms (.v4 addr pl) % 64 ≤ 32 := (Nat.mod_le ..).trans (Nat.sub_le ..)
    have hts : ts.toNat < 2 ^ 32 := h.trans_le (Nat.pow_le_pow_right (by decide) hle)
    rw [tsToIp, IpNet.network] at *
    dsimp only [number] at *
    generalize hb : beBytes 4 _ = b at *
    have hl : b.length = 4 := hb ▸ length_beBytes ..
    have hlt : beNat b < 2 ^ 32 := (beNat_lt b).trans_eq (by simp [hl])
    rw [beNat_be32, UInt32.toNat_add, toNat_u32At hl, UInt64.toNat_toUInt32,
      Nat.mod_eq_of_lt hts, Nat.mod_eq_of_lt (add_lt_two_pow hle hd hlt h)]
  | v6 addr pl =>
    have hle : subnetRooms (.v6 addr pl) % 64 ≤ 64 := (Nat.mod_lt _ (by decide)).le
    rw [tsToIp, IpNet.network] at *
    dsimp only [number] at *
    generalize hb : beBytes 16 _ = b at *
    have hl : b.length = 16 := hb ▸ length_beBytes ..
    have hlo : span (.v6 addr pl) ∣ beNat b % 2 ^ 64 :=
      (Nat.dvd_mod_iff (pow_dvd_pow 2 hle)).mpr hd
    exact beNat_addToBeBytes hl (add_lt_two_pow hle hlo (Nat.mod_lt _ (by decide)) h)

theorem tsToIp_injective (h : ts.toNat < span net) (h' : ts'.toNat < span net)
    (heq : tsToIp net ts = tsToIp net ts') : ts = ts' := by
  have hn := congrArg number heq
  rw [number_tsToIp h, number_tsToIp h'] at hn
  exact UInt64.toNat_inj.mp (add_left_cancel hn)

theorem contains_tsToIp (h : ts.toNat < span net) : net.contains (tsToIp net ts) = true := by
  have hn := number_tsToIp h
  have hle : span net ≤ 2 ^ subnetRooms net := Nat.le_of_dvd (Nat.two_pow_pos _) span_dvd
  have hb : number net.network ≤ number (tsToIp net ts) ∧
      number (tsToIp net ts) ≤ number net.network + (2 ^ subnetRooms net - 1) := by
    omega
  cases net with
  | v4 addr pl =>
    obtain ⟨ip, hip⟩ : ∃ ip, tsToIp (.v4 addr pl) ts = .v4 ip := ⟨_, rfl⟩
    rw [hip] at hb ⊢
    simpa [IpNet.contains] using hb
  | v6 addr pl =>
    obtain ⟨ip, hip⟩ : ∃ ip, tsToIp (.v6 addr pl) ts = .v6 ip := ⟨_, rfl⟩
    rw [hip] at hb ⊢
    simpa [IpNet.contains] using hb

theorem toNat_next (net : IpNet) (ts : UInt64) :
    (next net ts).toNat = (ts.toNat + 1) % span net := by
  have hd : span net ∣ 2 ^ 64 := pow_dvd_pow 2 (Nat.mod_lt _ (by decide)).le
  rw [next, toNat_and_mask, UInt64.toNat_add]
  exact Nat.mod_mod_of_dvd _ hd

theorem tsToIp_next_eq_network_iff (h : ts.toNat < span net) :
    tsToIp net (next net ts) = net.network ↔ ts.toNat + 1 = span net := by
  have hn := toNat_next net ts
  have hlt : (next net ts).toNat < span net := hn ▸ Nat.mod_lt _ (span_pos net)
  rw [← tsToIp_zero]
  constructor
  · intro heq
    have hz : next net ts = 0 := tsToIp_injective hlt (span_pos net) heq
    rw [hz, UInt64.toNat_zero, eq_comm, ← Nat.dvd_iff_mod_eq_zero] at hn
    exact le_antisymm h (Nat.le_of_dvd (Nat.succ_pos _) hn)
  · intro heq
    rw [heq, Nat.mod_self] at hn
    rw [UInt64.toNat_inj.mp (hn.trans UInt64.toNat_zero.symm)]

theorem next_decreases (h : tsToIp net (next net ts) ≠ net.network) :
    span net - (next net ts).toNat % span net < span net - ts.toNat % span net := by
  have hp := span_pos net
  have hlt := Nat.mod_lt ts.toNat hp
  have hn : (next net ts).toNat = (ts.toNat % span net + 1) % span net := by
    rw [toNat_next, Nat.mod_add_mod]
  have hne : ts.toNat % span net + 1 ≠ span net := by
    intro heq
    rw [heq, Nat.mod_self] at hn
    rw [UInt64.toNat_inj.mp (hn.trans UInt64.toNat_zero.symm), tsToIp_zero] at h
    exact h rfl
  have hs : ts.toNat % span net + 1 < span net := by omega
  rw [hn, Nat.mod_eq_of_lt hs, Nat.mod_eq_of_lt hs]
  omega

end

end XrayCore.Dns
