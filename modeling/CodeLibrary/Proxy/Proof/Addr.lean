import CodeLibrary.Lib.Bytes
import CodeLibrary.Proxy.Addr
import Mathlib.Data.Nat.Bitwise

/-!
# What `inet_atoul` accepts

* `inetAtoul_of_spells`, `inetAtoul_of_not_spells`: the strings it accepts begin with four numbers
  separated by dots (`Spells`), and the address is made of these modulo 256.
* `inetAtoul_ok`: both, and that it reads back what `inet_ultoa` prints.
* `inetAtoul_accepts`: three strings it accepts that are no dotted quads.
-/

namespace Proxy

open Scanf

/-- The string begins with four numbers separated by dots; a number may have white space and a sign
before its digits. -/
def Spells (s : List UInt8) (n0 n1 n2 n3 : Int) : Prop :=
  ∃ t0 t1 t2 t3 rest, s = t0 ++ dot :: (t1 ++ dot :: (t2 ++ dot :: (t3 ++ rest))) ∧
    IsInt t0 n0 ∧ IsInt t1 n1 ∧ IsInt t2 n2 ∧ IsInt t3 n3 ∧ NoDigit rest

/-- `u & 0xff` for the number `n` of the string. -/
def octet (wide : Int → Int) (n : Int) : Nat := (store wide n % 256).toNat

/-- Four octets as one number, big-endian. -/
def address (o0 o1 o2 o3 : Nat) : Nat := o0 * 2 ^ 24 + o1 * 2 ^ 16 + o2 * 2 ^ 8 + o3

/-- Four decimal numbers up to 255 separated by dots, and nothing else, are the address `v`. -/
def IsDottedQuad (s : List UInt8) (v : Nat) : Prop :=
  ∃ d0 d1 d2 d3, s = d0 ++ dot :: (d1 ++ dot :: (d2 ++ dot :: d3)) ∧
    (∀ d ∈ [d0, d1, d2, d3], d ≠ [] ∧ (∀ c ∈ d, isDigit c = true) ∧ valueFrom 0 d ≤ 255) ∧
    v = address (valueFrom 0 d0) (valueFrom 0 d1) (valueFrom 0 d2) (valueFrom 0 d3)

/-! ## The address -/

/-- A round of the loop that puts the octets together. -/
theorem toNat_shift_or {rv : UInt32} {o : Nat} (hrv : rv.toNat < 2 ^ 24) (ho : o < 256) :
    ((rv <<< 8) ||| UInt32.ofNat o).toNat = rv.toNat * 2 ^ 8 + o := by
  have hshift : (rv <<< 8).toNat = rv.toNat <<< 8 := by
    rw [UInt32.toNat_shiftLeft, Nat.mod_eq_of_lt]
    · rfl
    · rw [Nat.shiftLeft_eq]
      show rv.toNat * 2 ^ 8 < 2 ^ 32
      omega
  have hoct : (UInt32.ofNat o).toNat = o := UInt32.toNat_ofNat_of_lt' (by
    have : UInt32.size = 2 ^ 32 := rfl
    omega)
  rw [UInt32.toNat_or, hshift, hoct, ← Nat.shiftLeft_add_eq_or_of_lt ho, Nat.shiftLeft_eq]

theorem toNat_address {o0 o1 o2 o3 : Nat} (h0 : o0 < 256) (h1 : o1 < 256) (h2 : o2 < 256)
    (h3 : o3 < 256) :
    ([o0, o1, o2, o3].foldl (fun (rv : UInt32) o => (rv <<< 8) ||| UInt32.ofNat o) 0).toNat =
      address o0 o1 o2 o3 := by
  have hlt : ∀ (rv : UInt32) {o n : Nat}, ((rv <<< 8) ||| UInt32.ofNat o).toNat = n → n < 2 ^ 24 →
      ((rv <<< 8) ||| UInt32.ofNat o).toNat < 2 ^ 24 := fun _ _ _ he hn => he ▸ hn
  have e0 := @toNat_shift_or 0 _ (by decide) h0
  rw [UInt32.toNat_zero, Nat.zero_mul, Nat.zero_add] at e0
  have e1 := toNat_shift_or (hlt _ e0 (by omega)) h1
  rw [e0] at e1
  have e2 := toNat_shift_or (hlt _ e1 (by omega)) h2
  rw [e1] at e2
  have e3 := toNat_shift_or (hlt _ e2 (by omega)) h3
  rw [e2] at e3
  simp only [List.foldl_cons, List.foldl_nil]
  rw [e3, address]
  omega

theorem octet_lt (wide : Int → Int) (n : Int) : octet wide n < 256 := by
  unfold octet
  omega

/-! ## The strings -/

theorem quad_matches {s : List UInt8} {n0 n1 n2 n3 : Int} :
    Matches quadFormat s [n0, n1, n2, n3] ↔ Spells s n0 n1 n2 n3 := by
  constructor
  · intro h
    cases h with
    | int h0 _ h =>
    cases h with
    | char _ h =>
    cases h with
    | int h1 _ h =>
    cases h with
    | char _ h =>
    cases h with
    | int h2 _ h =>
    cases h with
    | char _ h =>
    cases h with
    | int h3 hrest h =>
    cases h with
    | done rest => exact ⟨_, _, _, _, _, rfl, h0, h1, h2, h3, hrest⟩
  · intro hx
    obtain ⟨t0, t1, t2, t3, rest, rfl, h0, h1, h2, h3, hrest⟩ := hx
    have hdot : ∀ s, NoDigit (dot :: s) := fun s c hc => by
      cases hc
      rfl
    exact .int h0 (hdot _) (.char _ (.int h1 (hdot _) (.char _ (.int h2 (hdot _) (.char _
      (.int h3 hrest (.done _)))))))

theorem matches_quad_length {s : List UInt8} {ns : List Int} (h : Matches quadFormat s ns) :
    ∃ n0 n1 n2 n3, ns = [n0, n1, n2, n3] := by
  have hlen : ns.length = 4 := (@sscanf_of_matches id _ _ _ h).2
  match ns, hlen with
  | [n0, n1, n2, n3], _ => exact ⟨n0, n1, n2, n3, rfl⟩

/-- **A string that is accepted**, and its address. -/
theorem inetAtoul_of_spells (wide : Int → Int) {s : List UInt8} {n0 n1 n2 n3 : Int}
    (h : Spells s n0 n1 n2 n3) : (inetAtoul wide s).toNat =
      address (octet wide n0) (octet wide n1) (octet wide n2) (octet wide n3) := by
  have hscan := (@sscanf_of_matches wide _ _ _ (quad_matches.2 h)).1
  rw [← toNat_address (octet_lt wide n0) (octet_lt wide n1) (octet_lt wide n2)
    (octet_lt wide n3), inetAtoul, hscan]
  rfl

/-- **Every other string is rejected.** -/
theorem inetAtoul_of_not_spells (wide : Int → Int) {s : List UInt8}
    (h : ¬ ∃ n0 n1 n2 n3, Spells s n0 n1 n2 n3) : inetAtoul wide s = 0xffffffff := by
  unfold inetAtoul
  dsimp only
  rw [if_neg]
  intro hlen
  obtain ⟨ns, hns⟩ := @matches_of_length wide quadFormat _ rfl hlen
  obtain ⟨n0, n1, n2, n3, rfl⟩ := matches_quad_length hns
  exact h ⟨n0, n1, n2, n3, quad_matches.1 hns⟩

/-- The octet of a number that is one. -/
theorem octet_of_lt (wide : Int → Int) {n : Nat} (h : n < 256) : octet wide n = n := by
  rw [octet, store, if_pos (by omega)]
  omega

theorem inetAtoul_inetUltoa (wide : Int → Int) (u : UInt32) : inetAtoul wide (inetUltoa u) = u := by
  have hlt := u.toNat_lt
  have hand : ∀ n : Nat, n &&& 255 = n % 256 := fun n => Nat.and_two_pow_sub_one_eq_mod n 8
  have h0 : ((u >>> 24) &&& 0xff).toNat = u.toNat / 2 ^ 24 % 256 := by
    rw [UInt32.toNat_and, UInt32.toNat_shiftRight, ← hand, ← Nat.shiftRight_eq_div_pow]
    rfl
  have h1 : ((u >>> 16) &&& 0xff).toNat = u.toNat / 2 ^ 16 % 256 := by
    rw [UInt32.toNat_and, UInt32.toNat_shiftRight, ← hand, ← Nat.shiftRight_eq_div_pow]
    rfl
  have h2 : ((u >>> 8) &&& 0xff).toNat = u.toNat / 2 ^ 8 % 256 := by
    rw [UInt32.toNat_and, UInt32.toNat_shiftRight, ← hand, ← Nat.shiftRight_eq_div_pow]
    rfl
  have h3 : (u &&& 0xff).toNat = u.toNat % 256 := by
    rw [UInt32.toNat_and, ← hand]
    rfl
  have hspells : Spells (inetUltoa u) (u.toNat / 2 ^ 24 % 256 : Nat) (u.toNat / 2 ^ 16 % 256 : Nat)
      (u.toNat / 2 ^ 8 % 256 : Nat) (u.toNat % 256 : Nat) := by
    refine ⟨_, _, _, _, [], ?_, isInt_decimal _, isInt_decimal _, isInt_decimal _, isInt_decimal _,
      fun c hc => absurd hc (by simp)⟩
    rw [inetUltoa, h0, h1, h2, h3, List.append_nil]
  rw [← UInt32.toNat_inj, inetAtoul_of_spells wide hspells, octet_of_lt _ (by omega),
    octet_of_lt _ (by omega), octet_of_lt _ (by omega), octet_of_lt _ (by omega), address]
  omega

/-- **`inet_atoul`** reads back what `inet_ultoa` prints. Of all strings it accepts those that begin
with four numbers separated by dots, and makes the address of these modulo 256. -/
theorem inetAtoul_ok (wide : Int → Int) :
    (∀ u, inetAtoul wide (inetUltoa u) = u) ∧
    (∀ s n0 n1 n2 n3, Spells s n0 n1 n2 n3 → (inetAtoul wide s).toNat =
      address (octet wide n0) (octet wide n1) (octet wide n2) (octet wide n3)) ∧
    ∀ s, (¬ ∃ n0 n1 n2 n3, Spells s n0 n1 n2 n3) → inetAtoul wide s = 0xffffffff :=
  ⟨inetAtoul_inetUltoa wide, fun _ _ _ _ _ h => inetAtoul_of_spells wide h,
    fun _ h => inetAtoul_of_not_spells wide h⟩

/-- The bytes of a dotted quad. -/
theorem IsDottedQuad.bytes {s : List UInt8} {v : Nat} (h : IsDottedQuad s v) :
    ∀ c ∈ s, isDigit c = true ∨ c = dot := by
  obtain ⟨d0, d1, d2, d3, rfl, hd, -⟩ := h
  simp only [List.forall_mem_cons] at hd
  obtain ⟨⟨-, h0, -⟩, ⟨-, h1, -⟩, ⟨-, h2, -⟩, ⟨-, h3, -⟩, -⟩ := hd
  intro c hc
  simp only [List.mem_append, List.mem_cons] at hc
  rcases hc with hc | rfl | hc | rfl | hc | rfl | hc
  · exact .inl (h0 c hc)
  · exact .inr rfl
  · exact .inl (h1 c hc)
  · exact .inr rfl
  · exact .inl (h2 c hc)
  · exact .inr rfl
  · exact .inl (h3 c hc)

/-- An octet above 255, a sign with white space before it, and trailing characters are accepted. -/
theorem inetAtoul_accepts :
    inetAtoul (fun _ => 0) "256.1.2.3".asciiBytes = 0x00010203 ∧
    inetAtoul (fun _ => 0) " -1.2.3.4".asciiBytes = 0xff020304 ∧
    inetAtoul (fun _ => 0) "1.2.3.4x".asciiBytes = 0x01020304 ∧
    ¬ ∀ s, inetAtoul (fun _ => 0) s ≠ 0xffffffff →
      IsDottedQuad s (inetAtoul (fun _ => 0) s).toNat := by
  refine ⟨by decide, by decide, by decide, fun h => ?_⟩
  have hquad := h "1.2.3.4x".asciiBytes (by decide)
  exact absurd (hquad.bytes 120 (by decide)) (by decide)

end Proxy
