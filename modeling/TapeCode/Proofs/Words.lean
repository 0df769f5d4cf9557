import Mathlib.Data.List.TakeWhile
import TapeCode.Proofs.Utf8
import TapeCode.Text.Words

/-!
The words of a text: the maximal runs of characters that are not white space. Cutting off a word finds the first one, also
when only a part of the text is there, as long as the part has the word and the white space behind it.
-/

namespace TapeCode.Text

/-- Whether a character that was decoded is white space. -/
def isSpace (c : Decoded) : Bool :=
  isBlank c.code

/-- The number of bytes that some characters take. -/
def extent (cs : List Decoded) : Nat :=
  cs.foldr (fun c n => c.width + n) 0

/-- A word, with the white space that ends it; none if the text ends it. -/
structure Word where
  first : Decoded
  others : List Decoded
  blank : Option Decoded
  deriving DecidableEq, Repr

namespace Word

/-- The number of bytes of the word. -/
def size (w : Word) : Nat :=
  extent (w.first :: w.others)

/-- The room that it takes to find the word: for its bytes and for those of the white space that ends it. A word that
the text ends takes one byte more than it has. -/
def need (w : Word) : Nat :=
  match w.blank with
  | some c => w.size + c.width
  | none => w.size + 1

/-- The low eight bits of the first character. -/
def initial (w : Word) : UInt8 :=
  UInt8.ofNat w.first.code

end Word

/-- The words of a text. -/
def words (cs : List Decoded) : List Word :=
  match _h : cs.dropWhile isSpace with
  | [] => []
  | c :: rest =>
    ⟨c, rest.takeWhile (!isSpace ·), (rest.dropWhile (!isSpace ·)).head?⟩ :: words (rest.dropWhile (!isSpace ·))
termination_by cs.length
decreasing_by
  have hcs := (List.dropWhile_sublist isSpace (l := cs)).length_le
  have hrest := (List.dropWhile_sublist (!isSpace ·) (l := rest)).length_le
  rw [_h, List.length_cons] at hcs
  omega

/-! ### Words of characters -/

section Words
variable {c : Decoded} {cs rest : List Decoded}

theorem words_of_nil (h : cs.dropWhile isSpace = []) : words cs = [] := by
  rw [words]
  split
  · rfl
  · next heq =>
    rw [h] at heq
    cases heq

theorem words_of_cons (h : cs.dropWhile isSpace = c :: rest) :
    words cs = ⟨c, rest.takeWhile (!isSpace ·), (rest.dropWhile (!isSpace ·)).head?⟩ ::
      words (rest.dropWhile (!isSpace ·)) := by
  rw [words]
  split
  · next heq =>
    rw [h] at heq
    cases heq
  · next heq =>
    rw [h] at heq
    cases heq
    rfl

theorem words_congr {cs' : List Decoded} (h : cs.dropWhile isSpace = cs'.dropWhile isSpace) : words cs = words cs' := by
  rcases hcs : cs.dropWhile isSpace with _ | ⟨c, rest⟩
  · rw [words_of_nil hcs, words_of_nil (h.symm.trans hcs)]
  · rw [words_of_cons hcs, words_of_cons (h.symm.trans hcs)]

theorem words_space (h : isSpace c = true) (rest : List Decoded) : words (c :: rest) = words rest :=
  words_congr (List.dropWhile_cons_of_pos h)

theorem words_append (hfirst : isSpace c = false) (hcs : ∀ x ∈ cs, isSpace x = false) {d : Decoded} (hd : isSpace d = true)
    (rest : List Decoded) : words (c :: cs ++ d :: rest) = ⟨c, cs, some d⟩ :: words rest := by
  have htake : (cs ++ d :: rest).takeWhile (!isSpace ·) = cs := by
    rw [List.takeWhile_append_of_pos (by simpa using hcs), List.takeWhile_cons_of_neg (by simp [hd]), List.append_nil]
  have hdrop : (cs ++ d :: rest).dropWhile (!isSpace ·) = d :: rest := by
    rw [List.dropWhile_append_of_pos (by simpa using hcs), List.dropWhile_cons_of_neg (by simp [hd])]
  rw [List.cons_append, words_of_cons (List.dropWhile_cons_of_neg (by simp [hfirst])), htake, hdrop, words_space hd]
  rfl

theorem words_last (hfirst : isSpace c = false) (hcs : ∀ x ∈ cs, isSpace x = false) :
    words (c :: cs) = [⟨c, cs, none⟩] := by
  have htake : cs.takeWhile (!isSpace ·) = cs := List.takeWhile_eq_self_iff.mpr (by simpa using hcs)
  have hdrop : cs.dropWhile (!isSpace ·) = [] := List.dropWhile_eq_nil_iff.mpr (by simpa using hcs)
  rw [words_of_cons (List.dropWhile_cons_of_neg (by simp [hfirst])), htake, hdrop, words_of_nil rfl]
  rfl

end Words

/-! ### Bytes -/

section Bytes
variable {b : UInt8} {rest pre more bytes word : List UInt8} {acc : Array UInt8}

theorem dropBlanks_nil : dropBlanks [] = [] := by
  rw [dropBlanks.eq_def]

theorem cutWord_nil : cutWord [] = none := by
  rw [cutWord, dropBlanks_nil, cutAtBlank.eq_def]

theorem dropBlanks_blank (h : isBlank (firstChar b rest).code = true) :
    dropBlanks (b :: rest) = dropBlanks (rest.drop ((firstChar b rest).width - 1)) := by
  rw [dropBlanks.eq_def]
  exact if_pos h

theorem dropBlanks_word (h : ¬isBlank (firstChar b rest).code = true) : dropBlanks (b :: rest) = b :: rest := by
  rw [dropBlanks.eq_def]
  exact if_neg h

theorem cutAtBlank_blank (h : isBlank (firstChar b rest).code = true) :
    cutAtBlank acc (b :: rest) = some (acc.toList, rest.drop ((firstChar b rest).width - 1)) := by
  rw [cutAtBlank.eq_def]
  exact if_pos h

theorem cutAtBlank_word (h : ¬isBlank (firstChar b rest).code = true) :
    cutAtBlank acc (b :: rest) =
      cutAtBlank (acc.push b ++ rest.take ((firstChar b rest).width - 1)) (rest.drop ((firstChar b rest).width - 1)) := by
  rw [cutAtBlank.eq_def]
  exact if_neg h

theorem characters_cons (b : UInt8) (rest : List UInt8) :
    characters (b :: rest) = firstChar b rest :: characters (rest.drop ((firstChar b rest).width - 1)) := by
  rw [characters]

theorem extent_characters (bytes : List UInt8) : extent (characters bytes) = bytes.length := by
  fun_induction characters bytes with
  | case1 => rfl
  | case2 b rest ih =>
    have hwidth := width_firstChar b rest
    rw [List.length_drop] at ih
    show (firstChar b rest).width + extent _ = _
    rw [ih, List.length_cons]
    omega

theorem dropBlanks_idem (bytes : List UInt8) : dropBlanks (dropBlanks bytes) = dropBlanks bytes := by
  fun_induction dropBlanks bytes with
  | case1 => exact dropBlanks_nil
  | case2 b rest c hblank ih => exact ih
  | case3 b rest c hblank => exact dropBlanks_word hblank

theorem length_dropBlanks_le (bytes : List UInt8) : (dropBlanks bytes).length ≤ bytes.length := by
  fun_induction dropBlanks bytes with
  | case1 => exact Nat.le_refl 0
  | case2 b rest c hblank ih =>
    rw [List.length_drop] at ih
    rw [List.length_cons]
    omega
  | case3 b rest c hblank => exact Nat.le_refl _

theorem characters_dropBlanks (bytes : List UInt8) :
    characters (dropBlanks bytes) = (characters bytes).dropWhile isSpace := by
  fun_induction dropBlanks bytes with
  | case1 => simp [characters]
  | case2 b rest c hblank ih =>
    have hspace : isSpace (firstChar b rest) = true := hblank
    rw [ih, characters_cons, List.dropWhile_cons_of_pos hspace]
  | case3 b rest c hblank =>
    have hspace : ¬isSpace (firstChar b rest) = true := hblank
    rw [characters_cons, List.dropWhile_cons_of_neg hspace]

theorem words_dropBlanks (bytes : List UInt8) : words (characters (dropBlanks bytes)) = words (characters bytes) := by
  apply words_congr
  rw [← characters_dropBlanks, dropBlanks_idem, characters_dropBlanks]

/-! ### Parts of a text -/

theorem not_isBlank_replacement : ¬isBlank replacement.code = true := by
  decide

theorem cutAtBlank_continues (h : ∀ b ∈ bytes, continues b = true) (acc : Array UInt8) : cutAtBlank acc bytes = none := by
  induction bytes generalizing acc with
  | nil => rw [cutAtBlank.eq_def]
  | cons b rest ih =>
    have hb := firstChar_continues (h b List.mem_cons_self) rest
    rw [cutAtBlank_word (hb ▸ not_isBlank_replacement), hb]
    exact ih (fun x hx => h x (List.mem_cons_of_mem b hx)) _

/-- A blank is complete, so what follows does not change it. -/
theorem firstChar_append_blank (h : isBlank (firstChar b rest).code = true) (more : List UInt8) :
    firstChar b (rest ++ more) = firstChar b rest := by
  rcases firstChar_append b rest more with hsame | ⟨hcut, -, -⟩
  · exact hsame
  · rw [hcut] at h
    exact absurd h not_isBlank_replacement

/-- Where a word and a blank are found, the first character is complete. -/
theorem firstChar_append_cut (h : (cutAtBlank acc (b :: rest)).isSome) (more : List UInt8) :
    firstChar b (rest ++ more) = firstChar b rest := by
  rcases firstChar_append b rest more with hsame | ⟨hcut, -, hcontinues⟩
  · exact hsame
  · rw [cutAtBlank_word (hcut ▸ not_isBlank_replacement), hcut] at h
    rw [show rest.drop (replacement.width - 1) = rest from rfl, cutAtBlank_continues hcontinues] at h
    cases h

theorem drop_append_width (b : UInt8) (rest more : List UInt8) :
    (rest ++ more).drop ((firstChar b rest).width - 1) = rest.drop ((firstChar b rest).width - 1) ++ more := by
  have hwidth := width_firstChar b rest
  exact List.drop_append_of_le_length (by omega)

theorem take_append_width (b : UInt8) (rest more : List UInt8) :
    (rest ++ more).take ((firstChar b rest).width - 1) = rest.take ((firstChar b rest).width - 1) := by
  have hwidth := width_firstChar b rest
  exact List.take_append_of_le_length (by omega)

theorem dropBlanks_append (pre more : List UInt8) : dropBlanks (dropBlanks pre ++ more) = dropBlanks (pre ++ more) := by
  fun_induction dropBlanks pre with
  | case1 => rfl
  | case2 b rest c hblank ih =>
    have hsame := firstChar_append_blank hblank more
    rw [List.cons_append, dropBlanks_blank (by rwa [hsame]), hsame, drop_append_width]
    exact ih
  | case3 b rest c hblank => rfl

theorem cutAtBlank_append (h : cutAtBlank acc pre = some (word, rest)) (more : List UInt8) :
    cutAtBlank acc (pre ++ more) = some (word, rest ++ more) := by
  fun_induction cutAtBlank acc pre with
  | case1 => cases h
  | case2 acc b rest c after hblank =>
    have hsame := firstChar_append_blank hblank more
    obtain ⟨rfl, rfl⟩ := Prod.mk.inj (Option.some.inj h)
    rw [List.cons_append, cutAtBlank_blank (by rwa [hsame]), hsame, drop_append_width]
  | case3 acc b rest c after hblank ih =>
    have hsome : (cutAtBlank acc (b :: rest)).isSome := by
      rw [cutAtBlank_word hblank, h]
      rfl
    have hsame := firstChar_append_cut hsome more
    rw [List.cons_append, cutAtBlank_word (by rwa [hsame]), hsame, drop_append_width, take_append_width]
    exact ih h

/-- The first character is known once there are as many bytes as it has. -/
theorem firstChar_of_prefix (hpre : pre <+: bytes) (h : (firstChar b bytes).width ≤ pre.length + 1) :
    firstChar b pre = firstChar b bytes := by
  obtain ⟨more, rfl⟩ := hpre
  rcases firstChar_append b pre more with hsame | ⟨-, hlt, -⟩
  · exact hsame.symm
  · omega

/-- A cut does not look behind the white space. -/
theorem cutAtBlank_split (h : cutAtBlank acc bytes = some (word, rest)) :
    ∃ body, bytes = body ++ rest ∧ cutAtBlank acc body = some (word, []) := by
  fun_induction cutAtBlank acc bytes with
  | case1 => cases h
  | case2 acc b bytes c after hblank =>
    obtain ⟨rfl, rfl⟩ := Prod.mk.inj (Option.some.inj h)
    have hwidth : 0 < c.width ∧ _ ∧ c.width ≤ bytes.length + 1 := width_firstChar b bytes
    have hlength : (bytes.take (c.width - 1)).length = c.width - 1 := List.length_take_of_le (by omega)
    have hsame : firstChar b (bytes.take (c.width - 1)) = c := by
      apply firstChar_of_prefix (List.take_prefix _ _)
      show c.width ≤ _
      omega
    refine ⟨b :: bytes.take (c.width - 1), by rw [List.cons_append, List.take_append_drop], ?_⟩
    rw [cutAtBlank_blank (by rwa [hsame]), hsame, List.drop_take_self]
  | case3 acc b bytes c after hblank ih =>
    obtain ⟨body, hafter, hcut⟩ := ih h
    have hwidth : 0 < c.width ∧ _ ∧ c.width ≤ bytes.length + 1 := width_firstChar b bytes
    have hlength : (bytes.take (c.width - 1)).length = c.width - 1 := List.length_take_of_le (by omega)
    have hbytes : bytes = bytes.take (c.width - 1) ++ body ++ rest := by
      rw [List.append_assoc, ← hafter, List.take_append_drop]
    have hsame : firstChar b (bytes.take (c.width - 1) ++ body) = c := by
      apply firstChar_of_prefix ⟨rest, hbytes.symm⟩
      show c.width ≤ _
      rw [List.length_append]
      omega
    refine ⟨b :: (bytes.take (c.width - 1) ++ body), by rw [List.cons_append, ← hbytes], ?_⟩
    rw [cutAtBlank_word (by rwa [hsame]), hsame, List.take_left' hlength, List.drop_left' hlength]
    exact hcut

theorem cutAtBlank_characters (h : cutAtBlank acc bytes = some (word, rest)) :
    ∃ cs c, characters bytes = cs ++ c :: characters rest ∧ (∀ x ∈ cs, isSpace x = false) ∧ isSpace c = true ∧
      word = acc.toList ++ bytes.take (extent cs) := by
  fun_induction cutAtBlank acc bytes with
  | case1 => cases h
  | case2 acc b bytes c after hblank =>
    obtain ⟨rfl, rfl⟩ := Prod.mk.inj (Option.some.inj h)
    refine ⟨[], c, characters_cons b bytes, by simp, hblank, ?_⟩
    rw [show extent [] = 0 from rfl, List.take_zero, List.append_nil]
  | case3 acc b bytes c after hblank ih =>
    obtain ⟨cs, d, hcs, hword, hd, rfl⟩ := ih h
    have hwidth : 0 < c.width ∧ _ ∧ c.width ≤ bytes.length + 1 := width_firstChar b bytes
    have hc : isSpace c = false := Bool.eq_false_iff.mpr hblank
    refine ⟨c :: cs, d, ?_, ?_, hd, ?_⟩
    · rw [characters_cons, List.cons_append, ← hcs]
    · exact List.forall_mem_cons.mpr ⟨hc, hword⟩
    · have htake : (b :: bytes).take (extent (c :: cs)) = b :: (bytes.take (c.width - 1) ++ after.take (extent cs)) := by
        have hextent : extent (c :: cs) = c.width - 1 + extent cs + 1 := by
          show c.width + extent cs = _
          omega
        rw [hextent, List.take_succ_cons, List.take_add]
      rw [htake]
      simp

theorem cutAtBlank_none (h : cutAtBlank acc bytes = none) : ∀ c ∈ characters bytes, isSpace c = false := by
  fun_induction cutAtBlank acc bytes with
  | case1 => simp [characters]
  | case2 => cases h
  | case3 acc b bytes c after hblank ih =>
    rw [characters_cons]
    exact List.forall_mem_cons.mpr ⟨Bool.eq_false_iff.mpr hblank, ih h⟩

theorem extent_append (cs ds : List Decoded) : extent (cs ++ ds) = extent cs + extent ds := by
  induction cs with
  | nil => exact (Nat.zero_add _).symm
  | cons c cs ih =>
    show c.width + extent (cs ++ ds) = c.width + extent cs + extent ds
    rw [ih, Nat.add_assoc]

/-- What is left when white space is dropped starts with a character of a word. -/
theorem not_isSpace_dropBlanks (h : dropBlanks bytes = b :: rest) : isSpace (firstChar b rest) = false := by
  have hself := dropBlanks_idem bytes
  rw [h] at hself
  refine Bool.eq_false_iff.mpr fun hblank => ?_
  rw [dropBlanks_blank hblank] at hself
  have hle := length_dropBlanks_le (rest.drop ((firstChar b rest).width - 1))
  rw [hself, List.length_cons, List.length_drop] at hle
  omega

/-! ### The first word -/

theorem initial_take {n : Nat} (h : (firstChar b rest).width ≤ n) :
    initial ((b :: rest).take n) = UInt8.ofNat (firstChar b rest).code := by
  have hwidth := width_firstChar b rest
  obtain ⟨n, rfl⟩ : ∃ k, n = k + 1 := ⟨n - 1, by omega⟩
  rw [List.take_succ_cons, initial, firstChar_of_prefix (List.take_prefix n rest)]
  rw [List.length_take]
  omega

theorem cutWord_some (h : cutWord bytes = some (word, rest)) :
    ∃ w, words (characters bytes) = w :: words (characters rest) ∧ initial word = w.initial ∧
      (dropBlanks bytes).length = w.need + rest.length := by
  obtain ⟨cs, d, hcs, hword, hd, rfl⟩ := cutAtBlank_characters h
  rcases hbytes : dropBlanks bytes with _ | ⟨b, more⟩
  · rw [cutWord, hbytes, cutAtBlank.eq_def] at h
    cases h
  · have hfirst := not_isSpace_dropBlanks hbytes
    have hextent := extent_characters (b :: more)
    rw [hbytes] at hcs
    rw [hcs, extent_append] at hextent
    rcases cs with _ | ⟨c, cs⟩
    -- The first character is none of the white space that ends a word.
    · rw [characters_cons] at hcs
      obtain ⟨rfl, -⟩ := List.cons.inj hcs
      rw [hfirst] at hd
      cases hd
    · have hc : firstChar b more = c := by
        rw [characters_cons] at hcs
        exact (List.cons.inj hcs).1
      subst hc
      refine ⟨⟨firstChar b more, cs, some d⟩, ?_, ?_, ?_⟩
      · rw [← words_dropBlanks, hbytes, hcs]
        exact words_append hfirst (List.forall_mem_cons.mp hword).2 hd _
      · exact initial_take (Nat.le_add_right _ _)
      · show _ = extent (firstChar b more :: cs) + d.width + rest.length
        rw [← extent_characters rest, ← hextent]
        exact (Nat.add_assoc _ _ _).symm

/-- The word that the end of the text ends. -/
theorem cutWord_none (h : cutWord bytes = none) (hbytes : dropBlanks bytes = b :: rest) :
    ∃ w, words (characters bytes) = [w] ∧ initial (b :: rest) = w.initial ∧ w.need = rest.length + 2 := by
  have hnone : ∀ c ∈ characters (b :: rest), isSpace c = false := hbytes ▸ cutAtBlank_none h
  have hextent := extent_characters (b :: rest)
  rw [characters_cons] at hnone hextent
  refine ⟨⟨firstChar b rest, characters (rest.drop ((firstChar b rest).width - 1)), none⟩, ?_, rfl, ?_⟩
  · rw [← words_dropBlanks, hbytes, characters_cons]
    exact words_last (List.forall_mem_cons.mp hnone).1 (List.forall_mem_cons.mp hnone).2
  · show extent (_ :: _) + 1 = _
    rw [hextent, List.length_cons]

theorem words_blank (h : dropBlanks bytes = []) : words (characters bytes) = [] := by
  rw [← words_dropBlanks, h]
  exact words_of_nil (by simp [characters])

theorem words_dropBlanks_append (pre more : List UInt8) :
    words (characters (dropBlanks pre ++ more)) = words (characters (pre ++ more)) := by
  rw [← words_dropBlanks, dropBlanks_append, words_dropBlanks]

theorem dropBlanks_append_cons {bytes : List UInt8} (hpre : dropBlanks pre = b :: bytes)
    (hsame : firstChar b (bytes ++ more) = firstChar b bytes) : dropBlanks (pre ++ more) = b :: (bytes ++ more) := by
  rw [← dropBlanks_append, hpre, List.cons_append, dropBlanks_word]
  rw [hsame]
  exact Bool.eq_false_iff.mp (not_isSpace_dropBlanks hpre)

theorem cutWord_append (h : cutWord pre = some (word, rest)) (more : List UInt8) :
    cutWord (pre ++ more) = some (word, rest ++ more) ∧ dropBlanks (pre ++ more) = dropBlanks pre ++ more := by
  rcases hpre : dropBlanks pre with _ | ⟨b, bytes⟩
  · rw [cutWord, hpre, cutAtBlank.eq_def] at h
    cases h
  · rw [cutWord, hpre] at h
    have hself := dropBlanks_append_cons hpre (firstChar_append_cut (by rw [h]; rfl) more)
    rw [cutWord, hself]
    exact ⟨cutAtBlank_append h more, rfl⟩

/-- If a part of a text has no whole word in it, then the first word takes more room than the part. -/
theorem words_of_cutWord_none (h : cutWord pre = none) (hlong : 4 ≤ (dropBlanks pre).length) (more : List UInt8) :
    ∃ w ws, words (characters (pre ++ more)) = w :: ws ∧ (dropBlanks pre).length < w.need := by
  rcases hpre : dropBlanks pre with _ | ⟨b, bytes⟩
  · rw [hpre] at hlong
    cases hlong
  · rw [hpre, List.length_cons] at hlong
    have hwidth := width_firstChar b (bytes ++ more)
    have hsame := firstChar_of_prefix (b := b) (List.prefix_append bytes more) (by omega)
    have hself := dropBlanks_append_cons hpre hsame.symm
    rcases hcut : cutWord (pre ++ more) with _ | ⟨word, rest⟩
    · obtain ⟨w, hwords, -, hneed⟩ := cutWord_none hcut hself
      refine ⟨w, [], hwords, ?_⟩
      rw [hneed, List.length_append, List.length_cons]
      omega
    · obtain ⟨w, hwords, -, hlength⟩ := cutWord_some hcut
      refine ⟨w, _, hwords, Nat.lt_of_not_le fun hle => ?_⟩
      -- Otherwise the word and the white space behind it lie in the part.
      rw [cutWord, hself] at hcut
      rw [hself] at hlength
      obtain ⟨body, hbody, hcut⟩ := cutAtBlank_split hcut
      obtain ⟨tail, htail⟩ : body <+: b :: bytes := by
        refine List.prefix_of_prefix_length_le ⟨rest, hbody.symm⟩ ⟨more, rfl⟩ ?_
        have := congrArg List.length hbody
        simp only [List.length_cons, List.length_append] at this hlength hle ⊢
        omega
      rw [cutWord, hpre, ← htail, cutAtBlank_append hcut] at h
      cases h

end Bytes

end TapeCode.Text
