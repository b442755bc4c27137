import LatticeSignature.Proofs.Envelope
import LatticeSignature.Proofs.SharedHasher
import Mathlib.Tactic.IntervalCases

/-!
# Seeds in hexadecimal text

A text is a seed if it consists of 64 hexadecimal digits of either case, with at most one `0x` or `0X` in
front. Every other text is refused, for its length if it spells bytes at all. A seed reads its own text
back.

* `Hex.IsDigit`, `Hex.Spells`: which bytes a text spells.
* **`Hex.decode?_eq_some_iff`**, `Hex.exists_spells_iff`: texts are read as they spell, those of an even
  number of digits.
* `Seed.stripped`: a text without one prefix.
* **`Seed.parse_of_spells`**, `Seed.parse_of_length_ne`, `Seed.parse_of_not_spells`: the three answers.
* **`Seed.parse_text`**: the text of a seed is read back.
* `Seed.TakesText`, **`seed_text_grammar`**: what key pairs and signers make of a text.
-/

namespace LatticeSignature

/-! ## Digits -/

namespace Hex

/-- `c` stands for `n` in one of the two rows of digits. -/
def IsDigit (c : Char) (n : ℕ) : Prop :=
  ['0', '1', '2', '3', '4', '5', '6', '7', '8', '9', 'a', 'b', 'c', 'd', 'e', 'f'][n]? = some c ∨
    ['0', '1', '2', '3', '4', '5', '6', '7', '8', '9', 'A', 'B', 'C', 'D', 'E', 'F'][n]? = some c

/-- **The bytes that a text spells**: two digits a byte, the high half first. -/
inductive Spells : List Char → Bytes → Prop
  | nil : Spells [] []
  | cons {hi lo : Char} {h l : ℕ} {text : List Char} {b : Bytes} (hhi : IsDigit hi h) (hlo : IsDigit lo l)
    (hrest : Spells text b) : Spells (hi :: lo :: text) ((16 * h + l).toUInt8 :: b)

section Spelling

variable {c : Char} {n : ℕ} {text : List Char} {b : Bytes}

theorem IsDigit.lt (h : IsDigit c n) : n < 16 := by
  rcases h with h | h
  · exact (List.getElem?_eq_some_iff.1 h).1
  · exact (List.getElem?_eq_some_iff.1 h).1

theorem value?_of_isDigit (h : IsDigit c n) : value? c = some n := by
  have hn := h.lt
  rcases h with h | h
  · interval_cases n <;> cases h <;> rfl
  · interval_cases n <;> cases h <;> rfl

theorem isDigit_of_le (first last : Char) {base : ℕ}
    (hrow : ∀ m, first.toNat ≤ m → m ≤ last.toNat → IsDigit (Char.ofNat m) (m - base))
    (h : first ≤ c ∧ c ≤ last) : IsDigit c (c.toNat - base) := by
  have hdigit := hrow c.toNat h.1 h.2
  rwa [Char.ofNat_toNat] at hdigit

theorem isDigit_of_value? (h : value? c = some n) : IsDigit c n := by
  have hnumber : ∀ m, 48 ≤ m → m ≤ 57 → IsDigit (Char.ofNat m) (m - 48) := by
    intro m _ _
    interval_cases m <;> exact Or.inl rfl
  have hlower : ∀ m, 97 ≤ m → m ≤ 102 → IsDigit (Char.ofNat m) (m - 87) := by
    intro m _ _
    interval_cases m <;> exact Or.inl rfl
  have hupper : ∀ m, 65 ≤ m → m ≤ 70 → IsDigit (Char.ofNat m) (m - 55) := by
    intro m _ _
    interval_cases m <;> exact Or.inr rfl
  unfold value? at h
  split at h
  · rename_i hc
    exact Option.some_inj.1 h ▸ isDigit_of_le '0' '9' hnumber hc
  split at h
  · rename_i hc
    exact Option.some_inj.1 h ▸ isDigit_of_le 'a' 'f' hlower hc
  split at h
  · rename_i hc
    exact Option.some_inj.1 h ▸ isDigit_of_le 'A' 'F' hupper hc
  · exact absurd h (by simp)

theorem isDigit_digit (hn : n < 16) : IsDigit (digit n) n := by
  interval_cases n <;> exact Or.inl rfl

/-! ## Texts -/

/-- **A text is read as it spells.** -/
theorem decode?_eq_some_iff : decode? text = some b ↔ Spells text b := by
  constructor
  · intro h
    induction text using decode?.induct generalizing b with
    | case1 =>
      obtain rfl := Option.some_inj.1 h
      exact .nil
    | case2 => exact absurd h (by simp [decode?])
    | case3 hi lo rest x y hy hx ih =>
      simp only [decode?, hx, hy, Option.map_eq_some_iff] at h
      obtain ⟨tail, htail, rfl⟩ := h
      exact .cons (isDigit_of_value? hx) (isDigit_of_value? hy) (ih htail)
    | case4 hi lo rest hnot =>
      rw [decode?] at h
      split at h
      · exact (hnot _ _ ‹_› ‹_›).elim
      · exact absurd h (by simp)
  · intro h
    induction h with
    | nil => rfl
    | cons hhi hlo _ ih => simp [decode?, value?_of_isDigit hhi, value?_of_isDigit hlo, ih]

theorem Spells.length_eq (h : Spells text b) : text.length = 2 * b.length := by
  induction h with
  | nil => rfl
  | cons _ _ _ ih =>
    rw [List.length_cons, List.length_cons, List.length_cons, ih]
    omega

/-- All characters are hexadecimal digits, of either case. -/
def AllDigits (text : List Char) : Prop := ∀ c ∈ text, ∃ n, IsDigit c n

theorem exists_spells_iff : (∃ b, Spells text b) ↔ Even text.length ∧ AllDigits text := by
  constructor
  · rintro ⟨b, h⟩
    refine ⟨⟨b.length, by rw [h.length_eq]; omega⟩, ?_⟩
    induction h with
    | nil => simp [AllDigits]
    | cons hhi hlo _ ih =>
      rw [AllDigits, List.forall_mem_cons, List.forall_mem_cons]
      exact ⟨⟨_, hhi⟩, ⟨_, hlo⟩, ih⟩
  · rintro ⟨heven, hdigits⟩
    induction text using decode?.induct with
    | case1 => exact ⟨[], .nil⟩
    | case2 c => exact absurd heven (by simp)
    | case3 hi lo rest x y hy hx ih =>
      rw [AllDigits, List.forall_mem_cons, List.forall_mem_cons] at hdigits
      rw [List.length_cons, List.length_cons, Nat.even_add_one, Nat.even_add_one, not_not] at heven
      obtain ⟨b, hb⟩ := ih heven hdigits.2.2
      exact ⟨_, .cons (isDigit_of_value? hx) (isDigit_of_value? hy) hb⟩
    | case4 hi lo rest hnot =>
      rw [AllDigits, List.forall_mem_cons, List.forall_mem_cons] at hdigits
      obtain ⟨⟨x, hx⟩, ⟨y, hy⟩, -⟩ := hdigits
      exact (hnot x y (value?_of_isDigit hx) (value?_of_isDigit hy)).elim

theorem spells_digits (b : Bytes) : Spells (b.flatMap digits) b := by
  induction b with
  | nil => exact .nil
  | cons x b ih =>
    have hx := x.toNat_lt
    have hbyte : (16 * (x.toNat / 16) + x.toNat % 16).toUInt8 = x := by
      rw [Nat.div_add_mod]
      exact UInt8.ofNat_toNat
    have hspells := Spells.cons (isDigit_digit (show x.toNat / 16 < 16 by omega))
      (isDigit_digit (show x.toNat % 16 < 16 by omega)) ih
    rwa [hbyte] at hspells

end Spelling

end Hex

/-! ## Seeds -/

namespace Seed

open Hex

/-- A text without one `0x` or `0X` in front. -/
def stripped (text : String) : List Char :=
  if ['0', 'x'] <+: text.toList ∨ ['0', 'X'] <+: text.toList then text.toList.drop 2 else text.toList

variable {text : String} {seed : Seed} {n : ℕ}

theorem digits_toList (text : String) : digits text.toList = stripped text := by
  unfold stripped
  generalize text.toList = l
  unfold digits
  split
  · simp
  · simp
  · rename_i hx hX
    rw [if_neg]
    rintro (⟨rest, h⟩ | ⟨rest, h⟩)
    · exact hx rest h.symm
    · exact hX rest h.symm

theorem parse_of_spells (h : Spells (stripped text) seed.bytes.bytes) : parse text = .ok seed := by
  simp only [parse, digits_toList, decode?_eq_some_iff.2 h, ByteString.ofBytes?_bytes]

theorem parse_of_length_ne {b : Bytes} (h : Spells (stripped text) b) (hb : b.length ≠ 32) :
    parse text = .error (.seedLength b.length) := by
  simp only [parse, digits_toList, decode?_eq_some_iff.2 h, ByteString.ofBytes?_eq_none_iff.2 hb]

theorem parse_of_not_spells (h : ¬∃ b, Spells (stripped text) b) : parse text = .error .hexSeed := by
  have hdecode : decode? (stripped text) = none :=
    Option.eq_none_iff_forall_ne_some.2 fun b hb => h ⟨b, decode?_eq_some_iff.1 hb⟩
  simp only [parse, digits_toList, hdecode]

theorem spells_stripped_text (seed : Seed) : Spells (stripped seed.text) seed.bytes.bytes := by
  have htext : seed.text.toList = '0' :: 'x' :: seed.bytes.bytes.flatMap Hex.digits := by
    simp [Seed.text, encode]
  rw [← digits_toList, htext]
  exact spells_digits _

/-- **The text of a seed is read back.** -/
theorem parse_text (seed : Seed) : parse seed.text = .ok seed := parse_of_spells (spells_stripped_text seed)

/-! ## Texts in place of seeds -/

/-- **What is made of a text**, where something is made of a seed: the same as of the seed, if the text
without its prefix consists of 64 digits; an error with the number of bytes, if it consists of an even
number of digits other than 64; another error, if it does not. -/
structure TakesText {α : Type} (ofText : String → Protocol (Except Error α))
    (ofSeed : Seed → Protocol α) : Prop where
  seed (text : String) (hlength : (stripped text).length = 64) (hdigits : AllDigits (stripped text)) :
    ∃ seed : Seed, Spells (stripped text) seed.bytes.bytes ∧
      ofText text = do return .ok (← ofSeed seed)
  seedLength (text : String) (n : ℕ) (hn : n ≠ 32) (hlength : (stripped text).length = 2 * n)
    (hdigits : AllDigits (stripped text)) : ofText text = pure (.error (.seedLength n))
  hexSeed (text : String) (h : ¬(Even (stripped text).length ∧ AllDigits (stripped text))) :
    ofText text = pure (.error .hexSeed)

theorem takesText {α : Type} {ofText : String → Protocol (Except Error α)} {ofSeed : Seed → Protocol α}
    (hok : ∀ text seed, parse text = .ok seed → ofText text = do return .ok (← ofSeed seed))
    (herror : ∀ text e, parse text = .error e → ofText text = pure (.error e)) :
    TakesText ofText ofSeed := by
  refine ⟨fun text hlength hdigits => ?_, fun text n hn hlength hdigits => ?_, fun text h => ?_⟩
  · obtain ⟨b, hb⟩ := exists_spells_iff.2 ⟨hlength ▸ by decide, hdigits⟩
    have hb32 : b.length = 32 := by
      have := hb.length_eq
      omega
    exact ⟨⟨⟨b, hb32⟩⟩, hb, hok _ _ (parse_of_spells hb)⟩
  · obtain ⟨b, hb⟩ := exists_spells_iff.2 ⟨hlength ▸ even_two_mul n, hdigits⟩
    have hbn : b.length = n := by
      have := hb.length_eq
      omega
    subst hbn
    exact herror _ _ (parse_of_length_ne hb hn)
  · exact herror _ _ (parse_of_not_spells (exists_spells_iff.not.2 h))

end Seed

section Handles

variable {O : Oracle} {config : SignerConfig}

theorem KeyPair.takesText_ofText (O : Oracle) :
    Seed.TakesText (ofText O) fun seed => generate O .standard seed.bytes := by
  apply Seed.takesText
  · intro text seed h
    rw [ofText, h]
  · intro text e h
    rw [ofText, h]

theorem Signer.takesText_ofText (O : Oracle) (config : SignerConfig) :
    Seed.TakesText (fun text => ofText O text config) fun seed => ofSeed O seed config := by
  apply Seed.takesText
  · intro text seed h
    rw [ofText, h]
  · intro text e h
    rw [ofText, h]

theorem LegacySigner.takesText_ofText (O : Oracle) : Seed.TakesText (ofText O) (ofSeed O) := by
  apply Seed.takesText
  · intro text seed h
    rw [ofText, h]
  · intro text e h
    rw [ofText, h]

/-- **The text of a signer's seed** gives the signer again, and its key pair. -/
theorem Signer.fresh_ofText_text {seed : Seed} {signer : Signer} {events : List Event}
    (h : (ofSeed O seed config).fresh = some (signer, events)) :
    (ofText O signer.seed.text config).fresh = some (.ok signer, events) ∧
      (KeyPair.ofText O signer.seed.text).fresh = some (.ok signer.keys, events) := by
  obtain ⟨keys, hkeys, rfl⟩ := exists_keys_of_ofSeed h
  constructor
  · rw [ofText, Seed.parse_text]
    exact (Protocol.fresh_bind_pure _ _).trans (by rw [h]; rfl)
  · rw [KeyPair.ofText, Seed.parse_text]
    exact (Protocol.fresh_bind_pure _ _).trans (by rw [hkeys]; rfl)

theorem LegacySigner.fresh_ofText_text {seed : Seed} {signer : LegacySigner} {events : List Event}
    (h : (ofSeed O seed).fresh = some (signer, events)) :
    (ofText O signer.seed.text).fresh = some (.ok signer, events) := by
  obtain ⟨keys, -, rfl⟩ := exists_keys_of_ofSeed h
  rw [ofText, Seed.parse_text]
  exact (Protocol.fresh_bind_pure _ _).trans (by rw [h]; rfl)

end Handles

/-- **Seeds as text.** Key pairs and signers of both schemes are made of a text as of the seed that it
spells in 64 hexadecimal digits of either case, behind one `0x`, one `0X` or nothing. A text of `2 n` digits
for another `n` is refused with `n`, and every other text for not being hexadecimal. Every seed is read back
from its text, so that the text of a signer's seed gives the signer and its key pair again. -/
theorem seed_text_grammar (O : Oracle) :
    Seed.TakesText (KeyPair.ofText O) (fun seed => KeyPair.generate O .standard seed.bytes) ∧
    (∀ config, Seed.TakesText (fun text => Signer.ofText O text config)
      fun seed => Signer.ofSeed O seed config) ∧
    Seed.TakesText (LegacySigner.ofText O) (LegacySigner.ofSeed O) ∧
    (∀ seed : Seed, Seed.parse seed.text = .ok seed) ∧
    (∀ seed config signer events, (Signer.ofSeed O seed config).fresh = some (signer, events) →
      signer.seed = seed ∧
      (Signer.ofText O signer.seed.text config).fresh = some (.ok signer, events) ∧
      (KeyPair.ofText O signer.seed.text).fresh = some (.ok signer.keys, events)) ∧
    ∀ seed signer events, (LegacySigner.ofSeed O seed).fresh = some (signer, events) →
      signer.seed = seed ∧
      (LegacySigner.ofText O signer.seed.text).fresh = some (.ok signer, events) := by
  refine ⟨KeyPair.takesText_ofText O, Signer.takesText_ofText O, LegacySigner.takesText_ofText O,
    Seed.parse_text, fun seed config signer events h => ?_, fun seed signer events h => ?_⟩
  · obtain ⟨keys, -, rfl⟩ := Signer.exists_keys_of_ofSeed h
    exact ⟨rfl, Signer.fresh_ofText_text h⟩
  · obtain ⟨keys, -, rfl⟩ := LegacySigner.exists_keys_of_ofSeed h
    exact ⟨rfl, LegacySigner.fresh_ofText_text h⟩

theorem seed_text_grammar_constant :
    (∃ seed : Seed, Hex.Spells (List.replicate 64 'F') seed.bytes.bytes ∧
      KeyPair.ofText .constant (String.ofList ('0' :: 'X' :: List.replicate 64 'F')) = do
        return .ok (← KeyPair.generate .constant .standard seed.bytes)) ∧
    Signer.ofText .constant "aB" .default = pure (.error (.seedLength 1)) ∧
    LegacySigner.ofText .constant "0x0X" = pure (.error .hexSeed) ∧
    ∃ signer events, (LegacySigner.ofSeed .constant ⟨.zero 32⟩).fresh = some (signer, events) ∧
      (LegacySigner.ofText .constant signer.seed.text).fresh = some (.ok signer, events) := by
  obtain ⟨hkeys, hsigner, hlegacy, -, -, hback⟩ := seed_text_grammar .constant
  refine ⟨?_, ?_, ?_, ?_⟩
  · have hstripped : Seed.stripped (String.ofList ('0' :: 'X' :: List.replicate 64 'F')) =
        List.replicate 64 'F' := by
      rw [← Seed.digits_toList, String.toList_ofList]
      rfl
    have hdigits : Hex.AllDigits (List.replicate 64 'F') :=
      fun c hc => ⟨15, List.eq_of_mem_replicate hc ▸ Or.inr rfl⟩
    rw [← hstripped] at hdigits ⊢
    exact hkeys.seed _ (by rw [hstripped]; rfl) hdigits
  · have hstripped : Seed.stripped "aB" = ['a', 'B'] := by decide
    refine (hsigner .default).seedLength "aB" 1 (by decide) (by rw [hstripped]; rfl) ?_
    rw [hstripped, Hex.AllDigits, List.forall_mem_cons, List.forall_mem_singleton]
    exact ⟨⟨10, Or.inl rfl⟩, ⟨11, Or.inr rfl⟩⟩
  · have hstripped : Seed.stripped "0x0X" = ['0', 'X'] := by decide
    refine hlegacy.hexSeed "0x0X" fun h => ?_
    obtain ⟨n, hn⟩ := h.2 'X' (by simp [hstripped])
    exact absurd (Hex.value?_of_isDigit hn) (by simp [Hex.value?])
  · obtain ⟨keys, s, hrun⟩ := KeyPair.exists_generate_repeating _ .legacy (.zero 32) ⟨.empty, []⟩
    have hseed : (LegacySigner.ofSeed .constant ⟨.zero 32⟩).fresh =
        some (⟨⟨.zero 32⟩, keys⟩, s.events) :=
      (Protocol.fresh_bind_pure _ _).trans (by rw [Protocol.fresh_of_apply hrun]; rfl)
    exact ⟨_, _, hseed, (hback _ _ _ hseed).2⟩

end LatticeSignature
