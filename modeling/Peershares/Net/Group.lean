import Peershares.Model.NetAddr

/-!
# The groups of addresses

What `GetGroup` is meant for: an address that carries an IPv4 address, in one of five ways, belongs to the network of
that, and any other address to its own network of 32 bits, or of 36 where a broker hands out parts of one network. The
network of the broker is `2001:470::/32`, and the one that the code tests is `2011:470::/32`.

* `CNetAddr.SameGroup` — the groups that are meant
* `CNetAddr.getGroup_of_embeds`, `CNetAddr.getGroup_of_native` — what `GetGroup` returns
* `CNetAddr.groupsOk_iff` — for which pairs of addresses the two agree
-/

namespace Peershares

namespace CNetAddr

/-! ### The groups that are meant -/

/-- `addr` carries an IPv4 address that starts with these two bytes: mapped, translated, behind the well-known prefix, in
a 6to4 tunnel, or inverted in a Teredo tunnel. -/
def Embeds (addr : CNetAddr) (p : UInt8 × UInt8) : Prop :=
  ((addr.isIPv4 ∨ addr.isRFC6145 ∨ addr.isRFC6052) ∧ p = (addr.getByte 3, addr.getByte 2)) ∨
    (addr.isRFC3964 ∧ p = (addr.getByte 13, addr.getByte 12)) ∨
    (addr.isRFC4380 ∧ p = (addr.getByte 3 ^^^ 0xff, addr.getByte 2 ^^^ 0xff))

/-- It carries none. -/
def Native (addr : CNetAddr) : Prop := ∀ p, ¬ addr.Embeds p

/-- The network `/32`. -/
def net32 (addr : CNetAddr) : List UInt8 := [addr.getByte 15, addr.getByte 14, addr.getByte 13, addr.getByte 12]

/-- The four bits behind it. -/
def next4 (addr : CNetAddr) : ℕ := (addr.getByte 11).toNat / 16

/-- `2001:470::/32`. -/
def heNet : List UInt8 := [0x20, 0x01, 0x04, 0x70]

/-- `2011:470::/32`. -/
def testedNet : List UInt8 := [0x20, 0x11, 0x04, 0x70]

/-- Both carry an address of one IPv4 network `/16`, or both are native: in one network `/32` that is not the broker's,
or in one network `/36` of the broker's. -/
def SameGroup (a b : CNetAddr) : Prop :=
  (∃ p, a.Embeds p ∧ b.Embeds p) ∨
    (a.Native ∧ b.Native ∧ a.net32 = b.net32 ∧ a.net32 ≠ heNet) ∨
    (a.Native ∧ b.Native ∧ a.net32 = heNet ∧ b.net32 = heNet ∧ a.next4 = b.next4)

/-! ### The families -/

/-- The bytes of a prefix. -/
theorem getByte_of_startsWith {addr : CNetAddr} {pch : List UInt8} (h : addr.startsWith pch = true) {i : ℕ}
    (hi : i < pch.length) (hi' : i ≤ 15) : addr.getByte (15 - i) = pch.getD i 0 := by
  have htake : addr.ip.take pch.length = pch := by simpa [startsWith] using h
  have hsub : 15 - (15 - i) = i := by omega
  rw [getByte, hsub, ← htake, List.getD_eq_getElem?_getD, List.getD_eq_getElem?_getD, List.getElem?_take_of_lt hi]

/-- The three families with the address at the end start with the bytes `00`, or `00 64`. -/
theorem byte_of_last {addr : CNetAddr} (h : addr.isIPv4 ∨ addr.isRFC6145 ∨ addr.isRFC6052) : addr.getByte 15 = 0 := by
  rcases h with h | h | h
  · exact getByte_of_startsWith h (i := 0) (by decide) (by omega)
  · exact getByte_of_startsWith h (i := 0) (by decide) (by omega)
  · exact getByte_of_startsWith h (i := 0) (by decide) (by omega)

/-- The prefix of 6to4. -/
theorem bytes_of_sixToFour {addr : CNetAddr} (h : addr.isRFC3964 = true) :
    addr.getByte 15 = 0x20 ∧ addr.getByte 14 = 0x02 := by
  simpa [isRFC3964] using h

/-- The prefix of Teredo. -/
theorem bytes_of_teredo {addr : CNetAddr} (h : addr.isRFC4380 = true) :
    addr.getByte 15 = 0x20 ∧ addr.getByte 14 = 0x01 ∧ addr.getByte 13 = 0 ∧ addr.getByte 12 = 0 := by
  simpa [isRFC4380, and_assoc] using h

/-- An address that starts with `20` has none at its end. -/
theorem last_eq_false {addr : CNetAddr} (h : addr.getByte 15 = 0x20) :
    (addr.isIPv4 || addr.isRFC6145 || addr.isRFC6052) = false := by
  refine Bool.eq_false_iff.mpr fun hor => ?_
  have hzero := byte_of_last (by simpa [or_assoc] using hor)
  rw [h] at hzero
  exact absurd hzero (by decide)

/-- An address in which no other one is embedded. -/
theorem native_iff {addr : CNetAddr} :
    addr.Native ↔ ¬ (addr.isIPv4 ∨ addr.isRFC6145 ∨ addr.isRFC6052) ∧ ¬ addr.isRFC3964 ∧ ¬ addr.isRFC4380 := by
  constructor
  · intro h
    exact ⟨fun hl => h _ (Or.inl ⟨hl, rfl⟩), fun hl => h _ (Or.inr (Or.inl ⟨hl, rfl⟩)),
      fun hl => h _ (Or.inr (Or.inr ⟨hl, rfl⟩))⟩
  · rintro ⟨hlast, hsix, hteredo⟩ p (h | h | h)
    · exact hlast h.1
    · exact hsix h.1
    · exact hteredo h.1

/-! ### What `GetGroup` returns -/

/-- All addresses that are not routable are one group. -/
theorem getGroup_of_unroutable {addr : CNetAddr} (h : addr.isRoutable = false) : addr.getGroup = [255] := by
  rw [getGroup, h]
  rfl

/-- The order of the tests does not matter, as no address is of two families. -/
theorem getGroup_of_embeds {addr : CNetAddr} (h : addr.isRoutable = true) {p : UInt8 × UInt8} (hp : addr.Embeds p) :
    addr.getGroup = [1, p.1, p.2] := by
  rw [getGroup, h]
  rcases hp with ⟨hlast, rfl⟩ | ⟨hsix, rfl⟩ | ⟨hteredo, rfl⟩
  · have hor : (addr.isIPv4 || addr.isRFC6145 || addr.isRFC6052) = true := by
      simpa [or_assoc] using hlast
    rw [hor]
    rfl
  · rw [last_eq_false (bytes_of_sixToFour hsix).1, hsix]
    rfl
  · have hbytes := bytes_of_teredo hteredo
    -- both tunnels start with `20`, and the second byte tells them apart
    have hsix : addr.isRFC3964 = false := by
      refine Bool.eq_false_iff.mpr fun hsix => ?_
      have htwo := (bytes_of_sixToFour hsix).2
      rw [hbytes.2.1] at htwo
      exact absurd htwo (by decide)
    rw [last_eq_false hbytes.1, hsix, hteredo]
    rfl

/-- A native address is told by 32 bits, and by 36 in the network that is tested. -/
theorem getGroup_of_native {addr : CNetAddr} (h : addr.isRoutable = true) (hn : addr.Native) :
    addr.getGroup = 0 :: addr.net32 ++ if addr.net32 = testedNet then [addr.getByte 11 ||| 15] else [] := by
  obtain ⟨hlast, hsix, hteredo⟩ := native_iff.mp hn
  have hor : (addr.isIPv4 || addr.isRFC6145 || addr.isRFC6052) = false := by
    refine Bool.eq_false_iff.mpr fun hor => hlast ?_
    simpa [or_assoc] using hor
  rw [getGroup, h, hor, Bool.eq_false_iff.mpr hsix, Bool.eq_false_iff.mpr hteredo]
  by_cases hnet : addr.net32 = testedNet
  · have htest : (addr.getByte 15 == 0x20 && addr.getByte 14 == 0x11 && addr.getByte 13 == 0x04 &&
        addr.getByte 12 == 0x70) = true := by
      simpa [net32, testedNet, and_assoc] using hnet
    rw [htest, if_pos hnet]
    rfl
  · have htest : (addr.getByte 15 == 0x20 && addr.getByte 14 == 0x11 && addr.getByte 13 == 0x04 &&
        addr.getByte 12 == 0x70) = false := by
      refine Bool.eq_false_iff.mpr fun htest => hnet ?_
      simpa [net32, testedNet, and_assoc] using htest
    rw [htest, if_neg hnet]
    rfl

/-! ### Which addresses share a group -/

/-- A byte with its lowest four bits set. -/
theorem or_fifteen (x y : UInt8) : x ||| 15 = y ||| 15 ↔ x.toNat / 16 = y.toNat / 16 := by
  have hall : ∀ i : Fin 256, (UInt8.ofNat i ||| 15).toNat = (i : ℕ) / 16 * 16 + 15 := by decide +kernel
  have hval : ∀ z : UInt8, (z ||| 15).toNat = z.toNat / 16 * 16 + 15 := by
    intro z
    have hz := hall ⟨z.toNat, z.toNat_lt⟩
    rwa [UInt8.ofNat_toNat] at hz
  rw [← UInt8.toNat_inj, hval x, hval y]
  omega

/-- Two native addresses: 32 bits are compared, or 36 in the tested net. -/
theorem getGroup_eq_of_native {a b : CNetAddr} (ha : a.isRoutable = true) (hb : b.isRoutable = true)
    (hna : a.Native) (hnb : b.Native) :
    a.getGroup = b.getGroup ↔ a.net32 = b.net32 ∧ (a.net32 = testedNet → a.next4 = b.next4) := by
  rw [getGroup_of_native ha hna, getGroup_of_native hb hnb, List.cons_append, List.cons_append, List.cons.injEq]
  have hlen : a.net32.length = b.net32.length := rfl
  constructor
  · rintro ⟨-, h⟩
    obtain ⟨hnet, hrest⟩ := List.append_inj h hlen
    refine ⟨hnet, fun htested => ?_⟩
    rw [← hnet, if_pos htested, if_pos htested] at hrest
    exact (or_fifteen _ _).mp (List.cons.inj hrest).1
  · rintro ⟨hnet, hnext⟩
    refine ⟨rfl, ?_⟩
    rw [← hnet]
    split_ifs with htested
    · rw [(or_fifteen _ _).mpr (hnext htested)]
    · rfl

/-- **The groups of two routable addresses** as one equivalence. -/
theorem getGroup_eq_iff {a b : CNetAddr} (ha : a.isRoutable = true) (hb : b.isRoutable = true) :
    a.getGroup = b.getGroup ↔ (∃ p, a.Embeds p ∧ b.Embeds p) ∨
      (a.Native ∧ b.Native ∧ a.net32 = b.net32 ∧ (a.net32 = testedNet → a.next4 = b.next4)) := by
  by_cases hna : a.Native
  · by_cases hnb : b.Native
    · rw [getGroup_eq_of_native ha hb hna hnb]
      constructor
      · exact fun h => Or.inr ⟨hna, hnb, h⟩
      · rintro (⟨p, hp, -⟩ | ⟨-, -, h⟩)
        · exact absurd hp (hna p)
        · exact h
    · obtain ⟨q, hq⟩ := not_forall_not.mp hnb
      rw [getGroup_of_native ha hna, getGroup_of_embeds hb hq]
      constructor
      · intro h
        exact absurd (List.cons.inj h).1 (by decide)
      · rintro (⟨p, hp, -⟩ | ⟨-, hnb', -⟩)
        · exact absurd hp (hna p)
        · exact absurd hnb' hnb
  · obtain ⟨p, hp⟩ := not_forall_not.mp hna
    rw [getGroup_of_embeds ha hp]
    by_cases hnb : b.Native
    · rw [getGroup_of_native hb hnb]
      constructor
      · intro h
        exact absurd (List.cons.inj h).1 (by decide)
      · rintro (⟨q, -, hq⟩ | ⟨hna', -⟩)
        · exact absurd hq (hnb q)
        · exact absurd hna' hna
    · obtain ⟨q, hq⟩ := not_forall_not.mp hnb
      rw [getGroup_of_embeds hb hq]
      constructor
      · intro h
        obtain rfl : p = q := by simpa [Prod.ext_iff] using h
        exact Or.inl ⟨p, hp, hq⟩
      · rintro (⟨r, hr, hr'⟩ | ⟨hna', -⟩)
        · rw [← getGroup_of_embeds ha hp, ← getGroup_of_embeds hb hq, getGroup_of_embeds ha hr, getGroup_of_embeds hb hr']
        · exact absurd hna' hna

/-- A routable address is never in the group of the unroutable ones. -/
theorem getGroup_ne_unroutable {addr : CNetAddr} (h : addr.isRoutable = true) : addr.getGroup ≠ [255] := by
  by_cases hn : addr.Native
  · rw [getGroup_of_native h hn]
    intro heq
    exact absurd (List.cons.inj heq).1 (by decide)
  · obtain ⟨p, hp⟩ := not_forall_not.mp hn
    rw [getGroup_of_embeds h hp]
    intro heq
    exact absurd (List.cons.inj heq).1 (by decide)

/-- What is meant of two addresses: routable ones share a group as `SameGroup` says, and the unroutable ones have a group
of their own. -/
def GroupsOk (a b : CNetAddr) : Prop :=
  (a.isRoutable = true → b.isRoutable = true → (a.getGroup = b.getGroup ↔ SameGroup a b)) ∧
    (a.isRoutable = false → b.isRoutable = false → a.getGroup = b.getGroup) ∧
    (a.isRoutable = false → b.isRoutable = true → a.getGroup ≠ b.getGroup)

/-- Two native addresses of one network `/32`, of the broker or of the one that is tested, in different networks
`/36`. -/
def Misgrouped (a b : CNetAddr) : Prop :=
  a.isRoutable = true ∧ b.isRoutable = true ∧ a.Native ∧ b.Native ∧ a.net32 = b.net32 ∧
    (a.net32 = heNet ∨ a.net32 = testedNet) ∧ a.next4 ≠ b.next4

/-- **The groups are as meant** for all addresses but those. -/
theorem groupsOk_iff (a b : CNetAddr) : GroupsOk a b ↔ ¬ Misgrouped a b := by
  have hnets : heNet ≠ testedNet := by decide
  constructor
  · rintro ⟨h, -⟩ ⟨ha, hb, hna, hnb, hnet, hor, hnext⟩
    have hiff := (getGroup_eq_iff ha hb).symm.trans (h ha hb)
    rcases hor with hhe | htested
    · -- one group, where two are meant
      have hcode := hiff.mp (Or.inr ⟨hna, hnb, hnet, fun htested => absurd (hhe.symm.trans htested) hnets⟩)
      rcases hcode with ⟨p, hp, -⟩ | ⟨-, -, -, hne⟩ | ⟨-, -, -, -, heq⟩
      · exact hna p hp
      · exact hne hhe
      · exact hnext heq
    · -- two groups, where one is meant
      have hmeant : SameGroup a b :=
        Or.inr (Or.inl ⟨hna, hnb, hnet, fun hhe => hnets (hhe.symm.trans htested)⟩)
      rcases hiff.mpr hmeant with ⟨p, hp, -⟩ | ⟨-, -, -, heq⟩
      · exact hna p hp
      · exact hnext (heq htested)
  · intro hok
    refine ⟨fun ha hb => ?_, fun ha hb => ?_, fun ha hb => ?_⟩
    · -- outside of both networks the code has what is meant, and inside the two agree on the next bits
      have hnext : a.Native → b.Native → a.net32 = b.net32 → a.net32 = heNet ∨ a.net32 = testedNet →
          a.next4 = b.next4 :=
        fun hna hnb hnet hor => by_contra fun hne => hok ⟨ha, hb, hna, hnb, hnet, hor, hne⟩
      rw [getGroup_eq_iff ha hb]
      constructor
      · rintro (hp | ⟨hna, hnb, hnet, -⟩)
        · exact Or.inl hp
        · by_cases hhe : a.net32 = heNet
          · exact Or.inr (Or.inr ⟨hna, hnb, hhe, hnet ▸ hhe, hnext hna hnb hnet (Or.inl hhe)⟩)
          · exact Or.inr (Or.inl ⟨hna, hnb, hnet, hhe⟩)
      · rintro (hp | ⟨hna, hnb, hnet, hhe⟩ | ⟨hna, hnb, hhe, hhe', heq⟩)
        · exact Or.inl hp
        · exact Or.inr ⟨hna, hnb, hnet, fun htested => hnext hna hnb hnet (Or.inr htested)⟩
        · exact Or.inr ⟨hna, hnb, hhe.trans hhe'.symm, fun _ => heq⟩
    · rw [getGroup_of_unroutable ha, getGroup_of_unroutable hb]
    · rw [getGroup_of_unroutable ha]
      exact (getGroup_ne_unroutable hb).symm

/-- `2001:470::1` and `2001:470:1000::1` are in one group. -/
theorem getGroup_heNet : ¬ ∀ a b : CNetAddr, a.isRoutable = true → b.isRoutable = true →
    (a.getGroup = b.getGroup ↔ SameGroup a b) := by
  intro h
  let a : CNetAddr := ⟨[0x20, 0x01, 0x04, 0x70, 0, 0, 0, 0, 0, 0, 0, 0, 0, 0, 0, 1], rfl⟩
  let b : CNetAddr := ⟨[0x20, 0x01, 0x04, 0x70, 0x10, 0, 0, 0, 0, 0, 0, 0, 0, 0, 0, 1], rfl⟩
  have hgroup : a.getGroup = b.getGroup := by decide
  have hna : a.Native := native_iff.mpr (by decide)
  rcases (h a b (by decide) (by decide)).mp hgroup with ⟨p, hp, -⟩ | ⟨-, -, -, hne⟩ | ⟨-, -, -, -, heq⟩
  · exact hna p hp
  · exact hne rfl
  · exact absurd heq (by decide)

end CNetAddr

end Peershares
