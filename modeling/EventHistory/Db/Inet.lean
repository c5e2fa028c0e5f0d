import Mathlib.Logic.Function.Basic
import EventHistory.Lib.DottedQuad
import EventHistory.Utils
import EventHistory.Db.Schema

/-!
# Addresses as text

`IPv4AddressToString` and the `INET` column that its text is bound to: the
text is the dotted quad of the octets of the address, the most significant
one in front, and is read back as that address.
-/

namespace EventHistory

/-! ## Octets -/

/-- A shift and the mask of one octet. -/
theorem shift_mask (addr : UInt32) {k : Nat} (hk : k < 32) :
    ((addr >>> UInt32.ofNat k) &&& 0xFF).toNat = addr.toNat / 2 ^ k % 256 := by
  have hshift : (UInt32.ofNat k).toNat % 32 = k := by
    rw [UInt32.toNat_ofNat']
    omega
  have hmask : (0xFF : UInt32).toNat = 2 ^ 8 - 1 := rfl
  rw [UInt32.toNat_and, UInt32.toNat_shiftRight, hshift, hmask, Nat.and_two_pow_sub_one_eq_mod,
    Nat.shiftRight_eq_div_pow]

theorem mask (addr : UInt32) : (addr &&& 0xFF).toNat = addr.toNat % 256 := by
  have hmask : (0xFF : UInt32).toNat = 2 ^ 8 - 1 := rfl
  rw [UInt32.toNat_and, hmask, Nat.and_two_pow_sub_one_eq_mod]

/-- The octets of an address make it up again. -/
theorem octets_recompose (addr : UInt32) :
    ((addr.toNat / 2 ^ 24 % 256 * 256 + addr.toNat / 2 ^ 16 % 256) * 256
      + addr.toNat / 2 ^ 8 % 256) * 256 + addr.toNat % 256 = addr.toNat := by
  have := addr.toNat_lt
  omega

theorem ipv4AddressToString_eq_quad (addr : UInt32) :
    ipv4AddressToString addr =
      DottedQuad.quad (addr.toNat / 2 ^ 24 % 256) (addr.toNat / 2 ^ 16 % 256)
        (addr.toNat / 2 ^ 8 % 256) (addr.toNat % 256) := by
  have h1 := shift_mask addr (k := 24) (by decide)
  have h2 := shift_mask addr (k := 16) (by decide)
  have h3 := shift_mask addr (k := 8) (by decide)
  rw [DottedQuad.quad, ← h1, ← h2, ← h3, ← mask addr]
  rfl

/-- The strict reader returns the address. -/
theorem read_ipv4AddressToString (addr : UInt32) :
    DottedQuad.read (ipv4AddressToString addr) = some addr := by
  rw [ipv4AddressToString_eq_quad, DottedQuad.read_quad (by omega) (by omega) (by omega)
    (by omega), octets_recompose, UInt32.ofNat_toNat]

/-! ## The column -/

/-- PostgreSQL takes every dotted quad for an `INET`. -/
def TakesQuads (pg : Pg) : Prop :=
  ∀ text, (DottedQuad.read text).isSome = true → (pg.inetIn text).isSome = true

/-- **`IPv4AddressToString` is invertible.** Its text is four canonical
decimals up to 255 with dots between them, from which a strict reader gets the
address back, with the first number as the most significant octet; so no two
addresses share a text, and each text is a value of the column `parsed_ip`. -/
theorem ipv4AddressToString_invertible :
    (∀ addr, ∃ octets : List (List Char), octets.length = 4
      ∧ (∀ ds ∈ octets, DottedQuad.canonical ds = true ∧ CxxText.digitsValue ds ≤ 255)
      ∧ (ipv4AddressToString addr).toList = ['.'].intercalate octets)
    ∧ (∀ addr, DottedQuad.read (ipv4AddressToString addr) = some addr)
    ∧ Function.Injective ipv4AddressToString
    ∧ ∀ pg, TakesQuads pg → ∀ addr, (pg.inetIn (ipv4AddressToString addr)).isSome = true := by
  refine ⟨?_, read_ipv4AddressToString, ?_, ?_⟩
  · intro addr
    refine ⟨_, ?_, ?_, by rw [ipv4AddressToString_eq_quad, DottedQuad.toList_quad]⟩
    · rfl
    · simp only [List.forall_mem_cons, DottedQuad.canonical_toDigits,
        CxxText.digitsValue_toDigits]
      refine ⟨⟨trivial, ?_⟩, ⟨trivial, ?_⟩, ⟨trivial, ?_⟩, ⟨trivial, ?_⟩, by simp⟩
      all_goals omega
  · intro addr addr' h
    have hread := congrArg DottedQuad.read h
    rw [read_ipv4AddressToString, read_ipv4AddressToString] at hread
    exact Option.some.inj hread
  · intro pg htakes addr
    exact htakes _ (by rw [read_ipv4AddressToString]; rfl)

/-- A database whose `INET` takes dotted quads and nothing else. -/
def quadPg : Pg where
  textIn := some
  timestamptzIn _ := none
  timestamptzOut _ := ""
  inetIn text := (DottedQuad.read text).map fun _ => text
  what _ := ""

theorem ipv4AddressToString_invertible_sample :
    (quadPg.inetIn (ipv4AddressToString 0xC0A80001)).isSome = true :=
  ipv4AddressToString_invertible.2.2.2 quadPg
    (fun _ h => by simpa [quadPg] using h) 0xC0A80001

end EventHistory
