import TapeCode.Text.Utf8

/-!
The decoder reads UTF-8. A byte sequence starts with the encoding of a character, and then that character is decoded, or
with none, and then its first byte counts as a replacement character. More bytes behind a sequence change the first
character only if they complete it.
-/

namespace TapeCode.Text

/-! ### Encodings by length -/

/-- The code points of characters. -/
def IsCode (v : Nat) : Prop :=
  v < 0xD800 ∨ 0xDFFF < v ∧ v < 0x110000

/-- The bytes of a code point, by their number. -/
inductive Encodes (v : Nat) : List UInt8 → Prop where
  | one {a : UInt8} (high : v < 0x80) (ha : a.toNat = v) : Encodes v [a]
  | two {a b : UInt8} (low : 0x80 ≤ v) (high : v < 0x800) (ha : a.toNat = v / 64 + 0xC0)
      (hb : b.toNat = v % 64 + 0x80) : Encodes v [a, b]
  | three {a b c : UInt8} (low : 0x800 ≤ v) (high : v < 0x10000) (ha : a.toNat = v / 4096 + 0xE0)
      (hb : b.toNat = v / 64 % 64 + 0x80) (hc : c.toNat = v % 64 + 0x80) : Encodes v [a, b, c]
  | four {a b c d : UInt8} (low : 0x10000 ≤ v) (high : v < 0x110000) (ha : a.toNat = v / 262144 + 0xF0)
      (hb : b.toNat = v / 4096 % 64 + 0x80) (hc : c.toNat = v / 64 % 64 + 0x80) (hd : d.toNat = v % 64 + 0x80) :
      Encodes v [a, b, c, d]

theorem isCode_toNat (c : Char) : IsCode c.toNat :=
  c.valid

theorem encodes_utf8EncodeChar (c : Char) : Encodes c.toNat (String.utf8EncodeChar c) := by
  have hcode := isCode_toNat c
  unfold IsCode at hcode
  unfold String.utf8EncodeChar
  rw [show c.val.toNat = c.toNat from rfl]
  dsimp only
  split
  · exact .one (by omega) (by rw [UInt8.toNat_ofNat']; omega)
  · split
    · exact .two (by omega) (by omega) (by rw [UInt8.toNat_ofNat']; omega) (by rw [UInt8.toNat_ofNat']; omega)
    · split
      · exact .three (by omega) (by omega) (by rw [UInt8.toNat_ofNat']; omega) (by rw [UInt8.toNat_ofNat']; omega)
          (by rw [UInt8.toNat_ofNat']; omega)
      · exact .four (by omega) (by omega) (by rw [UInt8.toNat_ofNat']; omega) (by rw [UInt8.toNat_ofNat']; omega)
          (by rw [UInt8.toNat_ofNat']; omega) (by rw [UInt8.toNat_ofNat']; omega)

theorem Encodes.unique {v : Nat} {l l' : List UInt8} (h : Encodes v l) (h' : Encodes v l') : l = l' := by
  have hbyte : ∀ {x y : UInt8} {n : Nat}, x.toNat = n → y.toNat = n → x = y :=
    fun hx hy => UInt8.toNat_inj.mp (hx.trans hy.symm)
  -- The lengths go with ranges that do not meet.
  cases h with
  | one _ ha =>
    cases h' with
    | one _ ha' => rw [hbyte ha ha']
    | two | three | four => omega
  | two _ _ ha hb =>
    cases h' with
    | two _ _ ha' hb' => rw [hbyte ha ha', hbyte hb hb']
    | one | three | four => omega
  | three _ _ ha hb hc =>
    cases h' with
    | three _ _ ha' hb' hc' => rw [hbyte ha ha', hbyte hb hb', hbyte hc hc']
    | one | two | four => omega
  | four _ _ ha hb hc hd =>
    cases h' with
    | four _ _ ha' hb' hc' hd' => rw [hbyte ha ha', hbyte hb hb', hbyte hc hc', hbyte hd hd']
    | one | two | three => omega

theorem within_iff {low high : Nat} {b : UInt8} : within low high b = true ↔ low ≤ b.toNat ∧ b.toNat ≤ high := by
  rw [within, Bool.and_eq_true, decide_eq_true_eq, decide_eq_true_eq]

theorem continues_iff {b : UInt8} : continues b = true ↔ 0x80 ≤ b.toNat ∧ b.toNat ≤ 0xBF :=
  within_iff

/-- Behind the first byte of an encoding there are bytes that continue it. -/
theorem Encodes.continues {v : Nat} {a : UInt8} {l : List UInt8} (h : Encodes v (a :: l)) : ∀ b ∈ l, continues b = true := by
  have hin : ∀ (b : UInt8) (n : Nat), b.toNat = n % 64 + 0x80 → Text.continues b = true := by
    intro b n hb
    rw [continues_iff]
    omega
  cases h with
  | one => simp
  | two _ _ _ hb => simp [hin _ _ hb]
  | three _ _ _ hb hc => simp [hin _ _ hb, hin _ _ hc]
  | four _ _ _ hb hc hd => simp [hin _ _ hb, hin _ _ hc, hin _ _ hd]

/-! ### The first character -/

/-- The decoder in terms of numbers. -/
theorem firstChar_eq (a : UInt8) (rest : List UInt8) :
    firstChar a rest =
      if a.toNat < 0x80 then ⟨a.toNat, 1⟩
      else if 0xC2 ≤ a.toNat ∧ a.toNat ≤ 0xDF then decode2 a rest
      else if a.toNat = 0xE0 then decode3 0xA0 0xBF a rest
      else if a.toNat = 0xED then decode3 0x80 0x9F a rest
      else if 0xE1 ≤ a.toNat ∧ a.toNat ≤ 0xEF then decode3 0x80 0xBF a rest
      else if a.toNat = 0xF0 then decode4 0x90 0xBF a rest
      else if 0xF1 ≤ a.toNat ∧ a.toNat ≤ 0xF3 then decode4 0x80 0xBF a rest
      else if a.toNat = 0xF4 then decode4 0x80 0x8F a rest
      else replacement := by
  simp [firstChar, within, ← UInt8.toNat_inj]

section Decode
variable {low high : Nat} {a b c d : UInt8} {more rest : List UInt8}

theorem decode2_cons (hb : 0x80 ≤ b.toNat ∧ b.toNat ≤ 0xBF) :
    decode2 a (b :: more) = ⟨a.toNat % 32 * 64 + b.toNat % 64, 2⟩ := by
  simp only [decode2, continues_iff.mpr hb, ↓reduceIte, payload]

theorem decode3_cons (hb : low ≤ b.toNat ∧ b.toNat ≤ high) (hc : 0x80 ≤ c.toNat ∧ c.toNat ≤ 0xBF) :
    decode3 low high a (b :: c :: more) = ⟨a.toNat % 16 * 4096 + b.toNat % 64 * 64 + c.toNat % 64, 3⟩ := by
  simp only [decode3, within_iff.mpr hb, continues_iff.mpr hc, Bool.and_self, ↓reduceIte, payload]

theorem decode4_cons (hb : low ≤ b.toNat ∧ b.toNat ≤ high) (hc : 0x80 ≤ c.toNat ∧ c.toNat ≤ 0xBF)
    (hd : 0x80 ≤ d.toNat ∧ d.toNat ≤ 0xBF) :
    decode4 low high a (b :: c :: d :: more) =
      ⟨a.toNat % 8 * 262144 + b.toNat % 64 * 4096 + c.toNat % 64 * 64 + d.toNat % 64, 4⟩ := by
  simp only [decode4, within_iff.mpr hb, continues_iff.mpr hc, continues_iff.mpr hd, Bool.and_self, ↓reduceIte, payload]

theorem decode2_cases (a : UInt8) (rest : List UInt8) :
    decode2 a rest = replacement ∨ ∃ b more, rest = b :: more ∧ 0x80 ≤ b.toNat ∧ b.toNat ≤ 0xBF := by
  unfold decode2
  split
  · next b more =>
    split
    · next hb => exact Or.inr ⟨b, more, rfl, continues_iff.mp hb⟩
    · exact Or.inl rfl
  · exact Or.inl rfl

theorem decode3_cases (low high : Nat) (a : UInt8) (rest : List UInt8) :
    decode3 low high a rest = replacement ∨ ∃ b c more, rest = b :: c :: more ∧
      (low ≤ b.toNat ∧ b.toNat ≤ high) ∧ 0x80 ≤ c.toNat ∧ c.toNat ≤ 0xBF := by
  unfold decode3
  split
  · next b c more =>
    split
    · next h =>
      rw [Bool.and_eq_true, within_iff, continues_iff] at h
      exact Or.inr ⟨b, c, more, rfl, h⟩
    · exact Or.inl rfl
  · exact Or.inl rfl

theorem decode4_cases (low high : Nat) (a : UInt8) (rest : List UInt8) :
    decode4 low high a rest = replacement ∨ ∃ b c d more, rest = b :: c :: d :: more ∧
      (low ≤ b.toNat ∧ b.toNat ≤ high) ∧ (0x80 ≤ c.toNat ∧ c.toNat ≤ 0xBF) ∧ 0x80 ≤ d.toNat ∧ d.toNat ≤ 0xBF := by
  unfold decode4
  split
  · next b c d more =>
    split
    · next h =>
      rw [Bool.and_eq_true, Bool.and_eq_true, within_iff, continues_iff, continues_iff, and_assoc] at h
      exact Or.inr ⟨b, c, d, more, rfl, h⟩
    · exact Or.inl rfl
  · exact Or.inl rfl

end Decode

theorem firstChar_encodes {v : Nat} {a : UInt8} {l : List UInt8} (h : Encodes v (a :: l)) (hcode : IsCode v)
    (more : List UInt8) : firstChar a (l ++ more) = ⟨v, l.length + 1⟩ := by
  unfold IsCode at hcode
  rw [firstChar_eq]
  cases h with
  | one high ha => rw [if_pos (by omega), ha, List.length_nil]
  | two low high ha hb =>
    rw [if_neg (by omega), if_pos (by omega), List.cons_append, decode2_cons (by omega), ha, hb]
    congr 1
    omega
  | @three _ b c low high ha hb hc =>
    have hvalue : a.toNat % 16 * 4096 + b.toNat % 64 * 64 + c.toNat % 64 = v := by omega
    rw [if_neg (by omega), if_neg (by omega), List.cons_append, List.cons_append]
    split
    · rw [decode3_cons (by omega) (by omega), hvalue]
      rfl
    · split
      · rw [decode3_cons (by omega) (by omega), hvalue]
        rfl
      · rw [if_pos (by omega), decode3_cons (by omega) (by omega), hvalue]
        rfl
  | @four _ b c d low high ha hb hc hd =>
    have hvalue : a.toNat % 8 * 262144 + b.toNat % 64 * 4096 + c.toNat % 64 * 64 + d.toNat % 64 = v := by omega
    rw [if_neg (by omega), if_neg (by omega), if_neg (by omega), if_neg (by omega), if_neg (by omega),
      List.cons_append, List.cons_append, List.cons_append]
    split
    · rw [decode4_cons (by omega) (by omega) (by omega), hvalue]
      rfl
    · split
      · rw [decode4_cons (by omega) (by omega) (by omega), hvalue]
        rfl
      · rw [if_pos (by omega), decode4_cons (by omega) (by omega) (by omega), hvalue]
        rfl

/-- A first byte is decoded as a replacement, or it starts the encoding of a code point. -/
def Starts (decoded : Decoded) (a : UInt8) (rest : List UInt8) : Prop :=
  decoded = replacement ∨ ∃ v l more, rest = l ++ more ∧ IsCode v ∧ Encodes v (a :: l)

section Starts
variable {low high : Nat} {a : UInt8}

theorem starts_decode2 (ha : 0xC2 ≤ a.toNat ∧ a.toNat ≤ 0xDF) (rest : List UInt8) : Starts (decode2 a rest) a rest := by
  rcases decode2_cases a rest with hnone | ⟨b, more, rfl, hb⟩
  · exact Or.inl hnone
  · refine Or.inr ⟨a.toNat % 32 * 64 + b.toNat % 64, [b], more, rfl, Or.inl (by omega), ?_⟩
    exact .two (by omega) (by omega) (by omega) (by omega)

theorem starts_decode3 (hlow : 0x80 ≤ low) (hhigh : high ≤ 0xBF) (ha : 0xE0 ≤ a.toNat ∧ a.toNat ≤ 0xEF)
    (hfirst : a.toNat = 0xE0 → 0xA0 ≤ low) (hsurrogate : a.toNat = 0xED → high ≤ 0x9F) (rest : List UInt8) :
    Starts (decode3 low high a rest) a rest := by
  rcases decode3_cases low high a rest with hnone | ⟨b, c, more, rfl, hb, hc⟩
  · exact Or.inl hnone
  · have hsum : ∃ x y z, a.toNat = 0xE0 + x ∧ b.toNat = 0x80 + y ∧ c.toNat = 0x80 + z ∧ x < 16 ∧ y < 64 ∧ z < 64 :=
      ⟨a.toNat - 0xE0, b.toNat - 0x80, c.toNat - 0x80, by omega, by omega, by omega, by omega, by omega, by omega⟩
    obtain ⟨x, y, z, hx, hy, hz, hx', hy', hz'⟩ := hsum
    refine Or.inr ⟨x * 4096 + y * 64 + z, [b, c], more, rfl, ?_, ?_⟩
    · unfold IsCode
      omega
    · exact .three (by omega) (by omega) (by omega) (by omega) (by omega)

theorem starts_decode4 (hlow : 0x80 ≤ low) (hhigh : high ≤ 0xBF) (ha : 0xF0 ≤ a.toNat ∧ a.toNat ≤ 0xF4)
    (hfirst : a.toNat = 0xF0 → 0x90 ≤ low) (hlast : a.toNat = 0xF4 → high ≤ 0x8F) (rest : List UInt8) :
    Starts (decode4 low high a rest) a rest := by
  rcases decode4_cases low high a rest with hnone | ⟨b, c, d, more, rfl, hb, hc, hd⟩
  · exact Or.inl hnone
  · have hsum : ∃ x y z w, a.toNat = 0xF0 + x ∧ b.toNat = 0x80 + y ∧ c.toNat = 0x80 + z ∧ d.toNat = 0x80 + w ∧ x < 5 ∧
        y < 64 ∧ z < 64 ∧ w < 64 :=
      ⟨a.toNat - 0xF0, b.toNat - 0x80, c.toNat - 0x80, d.toNat - 0x80, by omega, by omega, by omega, by omega, by omega,
        by omega, by omega, by omega⟩
    obtain ⟨x, y, z, w, hx, hy, hz, hw, hx', hy', hz', hw'⟩ := hsum
    refine Or.inr ⟨x * 262144 + y * 4096 + z * 64 + w, [b, c, d], more, rfl, ?_, ?_⟩
    · unfold IsCode
      omega
    · exact .four (by omega) (by omega) (by omega) (by omega) (by omega) (by omega)

theorem starts_firstChar (a : UInt8) (rest : List UInt8) : Starts (firstChar a rest) a rest := by
  rw [firstChar_eq]
  split
  · exact Or.inr ⟨a.toNat, [], rest, rfl, Or.inl (by omega), .one (by omega) rfl⟩
  · split
    · next ha => exact starts_decode2 ha rest
    · split
      · exact starts_decode3 (by omega) (by omega) (by omega) (by omega) (by omega) rest
      · split
        · exact starts_decode3 (by omega) (by omega) (by omega) (by omega) (by omega) rest
        · split
          · exact starts_decode3 (by omega) (by omega) (by omega) (by omega) (by omega) rest
          · split
            · exact starts_decode4 (by omega) (by omega) (by omega) (by omega) (by omega) rest
            · split
              · exact starts_decode4 (by omega) (by omega) (by omega) (by omega) (by omega) rest
              · split
                · exact starts_decode4 (by omega) (by omega) (by omega) (by omega) (by omega) rest
                · exact Or.inl rfl

end Starts

/-- More bytes change the first character only if they complete it. The bytes there were then all continue it. -/
theorem firstChar_append (a : UInt8) (pre more : List UInt8) :
    firstChar a (pre ++ more) = firstChar a pre ∨
      firstChar a pre = replacement ∧ pre.length + 1 < (firstChar a (pre ++ more)).width ∧
        ∀ b ∈ pre, continues b = true := by
  rcases starts_firstChar a pre with hnone | ⟨v, l, rest, rfl, hcode, hencodes⟩
  · rcases starts_firstChar a (pre ++ more) with hnone' | ⟨v, l, rest, hsplit, hcode, hencodes⟩
    · exact Or.inl (hnone'.trans hnone.symm)
    · have hwhole := firstChar_encodes hencodes hcode rest
      rw [← hsplit] at hwhole
      rcases List.append_eq_append_iff.mp hsplit with ⟨l', rfl, -⟩ | ⟨pre', rfl, -⟩
      · rcases l' with _ | ⟨b, l'⟩
        · have hpre := firstChar_encodes hencodes hcode []
          rw [List.append_nil] at hpre hwhole
          rw [List.append_nil] at hpre
          exact Or.inl (hwhole.trans hpre.symm)
        · refine Or.inr ⟨hnone, ?_, fun b hb => hencodes.continues b (List.mem_append_left _ hb)⟩
          rw [hwhole]
          simp
      · exact Or.inl (hwhole.trans (firstChar_encodes hencodes hcode pre').symm)
  · rw [List.append_assoc, firstChar_encodes hencodes hcode, firstChar_encodes hencodes hcode]
    exact Or.inl rfl

theorem width_firstChar (a : UInt8) (rest : List UInt8) :
    0 < (firstChar a rest).width ∧ (firstChar a rest).width ≤ 4 ∧ (firstChar a rest).width ≤ rest.length + 1 := by
  rcases starts_firstChar a rest with hnone | ⟨v, l, more, rfl, hcode, hencodes⟩
  · simp [hnone, replacement]
  · rw [firstChar_encodes hencodes hcode, List.length_append]
    have : l.length ≤ 3 := by cases hencodes <;> simp
    exact ⟨by simp, Nat.succ_le_succ this, by simp⟩

theorem firstChar_continues {a : UInt8} (h : continues a = true) (rest : List UInt8) : firstChar a rest = replacement := by
  rw [continues_iff] at h
  rw [firstChar_eq, if_neg (by omega), if_neg (by omega), if_neg (by omega), if_neg (by omega), if_neg (by omega),
    if_neg (by omega), if_neg (by omega), if_neg (by omega)]

/-! ### Whole texts -/

/-- Some bytes read as UTF-8, character by character. A byte where no character starts is a replacement character. -/
inductive Reads : List UInt8 → List Decoded → Prop where
  | done : Reads [] []
  | char (c : Char) {rest : List UInt8} {cs : List Decoded} (h : Reads rest cs) :
      Reads (String.utf8EncodeChar c ++ rest) (⟨c.toNat, (String.utf8EncodeChar c).length⟩ :: cs)
  | invalid {b : UInt8} {rest : List UInt8} {cs : List Decoded}
      (hnone : ∀ c, ¬String.utf8EncodeChar c <+: b :: rest) (h : Reads rest cs) :
      Reads (b :: rest) (⟨0xFFFD, 1⟩ :: cs)

/-- The characters of some bytes. -/
def characters : List UInt8 → List Decoded
  | [] => []
  | b :: rest => firstChar b rest :: characters (rest.drop ((firstChar b rest).width - 1))
termination_by bytes => bytes.length
decreasing_by
  simp only [List.length_cons, List.length_drop]
  omega

theorem exists_char {v : Nat} (h : IsCode v) : ∃ c : Char, c.toNat = v :=
  ⟨Char.ofNatAux v h, rfl⟩

/-- A byte that is decoded as a replacement starts the encoding of no character. -/
theorem not_prefix_of_replacement {b : UInt8} {rest : List UInt8} (h : firstChar b rest = replacement) (c : Char) :
    ¬String.utf8EncodeChar c <+: b :: rest := by
  rintro ⟨more, hsplit⟩
  have hencodes := encodes_utf8EncodeChar c
  rcases hlist : String.utf8EncodeChar c with _ | ⟨a, l⟩
  · rw [hlist] at hencodes
    cases hencodes
  · rw [hlist] at hencodes hsplit
    rw [List.cons_append] at hsplit
    obtain ⟨rfl, rfl⟩ := List.cons.inj hsplit
    rw [firstChar_encodes hencodes (isCode_toNat c)] at h
    obtain ⟨hvalue, hlength⟩ := Decoded.mk.inj h
    cases hencodes with
    | one high => omega
    | two | three | four => cases hlength

theorem reads_characters (bytes : List UInt8) : Reads bytes (characters bytes) := by
  fun_induction characters bytes with
  | case1 => exact .done
  | case2 b rest ih =>
    rcases starts_firstChar b rest with hnone | ⟨v, l, more, rfl, hcode, hencodes⟩
    · have hnext := not_prefix_of_replacement hnone
      rw [hnone] at ih ⊢
      exact .invalid hnext ih
    · obtain ⟨c, rfl⟩ := exists_char hcode
      have hl := hencodes.unique (encodes_utf8EncodeChar c)
      rw [firstChar_encodes hencodes hcode] at ih ⊢
      rw [Nat.add_sub_cancel, List.drop_left] at ih ⊢
      have hread := Reads.char c ih
      rw [← hl] at hread
      exact hread

end TapeCode.Text
