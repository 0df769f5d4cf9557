import Mathlib.Algebra.Group.Nat.Defs
import TapeCode.Proofs.Safety
import TapeCode.Proofs.Words

/-!
Reading word by word. A reader holds a window of its source, and the words not read yet are those of the window and of
what follows it. No division of the source into chunks, no move of the window and no growth of the buffer changes them.
-/

namespace TapeCode

/-! ### Sources -/

namespace Source
variable {chunks rest : List (List UInt8)} {s s' : Source} {bytes : List UInt8} {limit : Nat}

theorem flatten_readChunk (h : readChunk limit chunks = some (bytes, rest)) :
    chunks.flatten = bytes ++ rest.flatten ∧ bytes.length ≤ limit := by
  fun_induction readChunk limit chunks with
  | case1 => cases h
  | case2 chunks ih => exact ih h
  | case3 chunk chunks nonempty =>
    obtain ⟨rfl, rfl⟩ := Prod.mk.inj (Option.some.inj h)
    refine ⟨?_, List.length_take_le _ _⟩
    rw [List.flatten_cons, List.flatten_cons, ← List.append_assoc, List.take_append_drop]

theorem readChunk_none (h : readChunk limit chunks = none) : chunks.flatten = [] := by
  fun_induction readChunk limit chunks with
  | case1 => rfl
  | case2 chunks ih => exact ih h
  | case3 => cases h

theorem bytes_read (h : s.read limit = some (bytes, s')) : s.bytes = bytes ++ s'.bytes ∧ bytes.length ≤ limit := by
  obtain ⟨⟨taken, chunks⟩, hread, heq⟩ := Option.map_eq_some_iff.mp h
  obtain ⟨rfl, rfl⟩ := Prod.mk.inj heq
  exact flatten_readChunk hread

theorem bytes_of_read_none (h : s.read limit = none) : s.bytes = [] :=
  readChunk_none (Option.map_eq_none_iff.mp h)

end Source

namespace WordReader

/-! ### Buffers -/

/-- The data held lies in the buffer, and the buffer has one of its sizes. -/
structure Sound (r : WordReader) : Prop where
  held : r.held.length ≤ r.finish
  finish : r.finish ≤ r.capacity
  capacity : r.capacity = 0 ∨ ∃ k, r.capacity * 2 ^ k = maxCapacity

section Buffers
variable {r r' : WordReader} {bytes : List UInt8}

theorem Sound.capacity_le (h : r.Sound) : r.capacity ≤ maxCapacity := by
  rcases h.capacity with hzero | ⟨k, hk⟩
  · omega
  · rw [← hk]
    exact Nat.le_mul_of_pos_right _ (Nat.two_pow_pos k)

theorem Sound.shorten (h : r.Sound) (hle : bytes.length ≤ r.held.length) : { r with held := bytes }.Sound :=
  ⟨Nat.le_trans hle h.held, h.finish, h.capacity⟩

theorem Sound.fill (h : r.Sound) (hroom : r.finish < r.capacity) (hle : bytes.length ≤ r.room) : (r.fill bytes).Sound := by
  have hheld := h.held
  unfold room at hle
  refine ⟨?_, ?_, h.capacity⟩
  · show (r.held ++ bytes).length ≤ r.finish + bytes.length
    rw [List.length_append]
    omega
  · show r.finish + bytes.length ≤ r.capacity
    omega

theorem Sound.grow (h : r.Sound) (hsmall : r.capacity < maxCapacity) (hfull : r.held.length = r.capacity) :
    r.grow.Sound ∧ r.grow.finish < r.grow.capacity := by
  have hfinish : r.grow.finish = r.capacity := hfull
  rcases Nat.eq_zero_or_pos r.capacity with hzero | hpos
  · have hgrow : r.grow.capacity = initialCapacity := if_pos hzero
    have hlt : r.grow.finish < r.grow.capacity := by
      rw [hfinish, hgrow, hzero]
      exact Nat.zero_lt_succ _
    exact ⟨⟨Nat.le_refl _, Nat.le_of_lt hlt, Or.inr ⟨4, by rw [hgrow]; rfl⟩⟩, hlt⟩
  · have hgrow : r.grow.capacity = 2 * r.capacity := if_neg (Nat.ne_of_gt hpos)
    have hlt : r.grow.finish < r.grow.capacity := by omega
    refine ⟨⟨Nat.le_refl _, Nat.le_of_lt hlt, Or.inr ?_⟩, hlt⟩
    rcases h.capacity with hzero | ⟨_ | k, hk⟩
    · omega
    · rw [Nat.pow_zero, Nat.mul_one] at hk
      omega
    · exact ⟨k, by rw [hgrow, ← hk, Nat.pow_succ']; ac_rfl⟩

theorem compact_held (r : WordReader) : r.compact.held = r.held ∧ r.compact.capacity = r.capacity := by
  unfold compact
  split
  · exact ⟨rfl, rfl⟩
  · exact ⟨rfl, rfl⟩

theorem Sound.compact (h : r.Sound) : r.compact.Sound := by
  have hheld := h.held
  have hfinish := h.finish
  unfold WordReader.compact
  split
  · exact ⟨Nat.le_refl _, Nat.le_trans hheld hfinish, h.capacity⟩
  · exact h

/-- A buffer that is moved to the front has room, unless the data fills it. -/
theorem Sound.compact_full (h : r.Sound) (hfull : ¬r.compact.finish < r.compact.capacity) : r.held.length = r.capacity := by
  have hheld := h.held
  have hfinish := h.finish
  unfold WordReader.compact start at hfull
  split at hfull
  · have : ¬r.held.length < r.capacity := hfull
    omega
  · next hstay => omega

theorem Sound.makeRoom (h : r.Sound) (hroom : r.makeRoom = some r') :
    r'.Sound ∧ r'.held = r.held ∧ r'.finish < r'.capacity := by
  obtain ⟨hheld, hcapacity⟩ := r.compact_held
  simp only [WordReader.makeRoom] at hroom
  split at hroom
  · next hlt =>
    cases hroom
    exact ⟨h.compact, hheld, hlt⟩
  · next hfull =>
    split at hroom
    · next hsmall =>
      cases hroom
      have hgrow := h.compact.grow hsmall (by rw [hheld, hcapacity, h.compact_full hfull])
      exact ⟨hgrow.1, hheld, hgrow.2⟩
    · cases hroom

theorem Sound.makeRoom_none (h : r.Sound) (hroom : r.makeRoom = none) : r.held.length = maxCapacity := by
  obtain ⟨-, hcapacity⟩ := r.compact_held
  have hle := h.capacity_le
  simp only [WordReader.makeRoom] at hroom
  split at hroom
  · cases hroom
  · next hfull =>
    split at hroom
    · cases hroom
    · have := h.compact_full hfull
      omega

end Buffers

/-! ### Windows -/

/-- A reader on a source from which some words are still to come. A reader that has ended holds nothing. -/
structure Unread (r : WordReader) (s : Source) (ws : List Text.Word) : Prop where
  sound : r.Sound
  words : Text.words (Text.characters (r.held ++ s.bytes)) = ws
  ended : ∀ ended, r.ended = some ended → ended = endOf s ∧ r.held = [] ∧ s.bytes = []

/-- The answer to a request for a word when some words are still to come. -/
inductive Answer (s : Source) : List Text.Word → Except Ended (List UInt8) × WordReader × Source → Prop where
  | word {w : Text.Word} {ws : List Text.Word} {word : List UInt8} {r' : WordReader} {s' : Source}
      (hneed : w.need ≤ maxCapacity) (hinitial : Text.initial word = w.initial) (hrest : r'.Unread s' ws)
      (hfailure : s'.failure = s.failure) : Answer s (w :: ws) (.ok word, r', s')
  | tooLong {w : Text.Word} {ws : List Text.Word} {r' : WordReader} {s' : Source} (hneed : maxCapacity < w.need) :
      Answer s (w :: ws) (.error .wordTooLong, r', s')
  | exhausted {r' : WordReader} {s' : Source} : Answer s [] (.error (endOf s), r', s')

section Windows
variable {r : WordReader} {s s' : Source} {ws : List Text.Word}

theorem endOf_congr (h : s'.failure = s.failure) : endOf s' = endOf s := by
  rw [endOf, h, endOf]

theorem Answer.congr {found : Except Ended (List UInt8) × WordReader × Source} (hfailure : s'.failure = s.failure)
    (h : Answer s' ws found) : Answer s ws found := by
  cases h with
  | word hneed hinitial hrest hsame => exact .word hneed hinitial hrest (hsame.trans hfailure)
  | tooLong hneed => exact .tooLong hneed
  | exhausted =>
    rw [endOf_congr hfailure]
    exact .exhausted

/-- A word that lies in the window is the next one. -/
theorem Unread.cut (h : r.Unread s ws) {word rest : List UInt8} (hcut : Text.cutWord r.held = some (word, rest))
    (hended : r.ended = none) : Answer s ws (.ok word, { r with held := rest }, s) := by
  obtain ⟨hwhole, hdrop⟩ := Text.cutWord_append hcut s.bytes
  obtain ⟨w, hwords, hinitial, hlength⟩ := Text.cutWord_some hwhole
  have hle := Text.length_dropBlanks_le r.held
  have hheld := h.sound.held
  have hfinish := h.sound.finish
  have hcapacity := h.sound.capacity_le
  rw [hdrop, List.length_append, List.length_append] at hlength
  obtain rfl := hwords.symm.trans h.words
  refine .word (by omega) hinitial ⟨h.sound.shorten (by omega), rfl, fun ended he => ?_⟩ rfl
  rw [hended] at he
  cases he

/-- When nothing more comes, what is left is the last word. -/
theorem Unread.last (h : r.Unread s ws) (hcut : Text.cutWord r.held = none) (hlt : r.held.length < maxCapacity)
    (hbytes : s.bytes = []) :
    Answer s ws ((r.lastWord (endOf s)).1, (r.lastWord (endOf s)).2, s) := by
  have hwords := h.words
  rw [hbytes, List.append_nil] at hwords
  simp only [lastWord, hcut]
  rcases hheld : Text.dropBlanks r.held with _ | ⟨b, word⟩
  · rw [Text.words_blank hheld] at hwords
    subst hwords
    exact .exhausted
  · obtain ⟨w, hw, hinitial, hneed⟩ := Text.cutWord_none hcut hheld
    obtain rfl := hw.symm.trans hwords
    have hle := Text.length_dropBlanks_le r.held
    rw [hheld, List.length_cons] at hle
    refine .word (by omega) hinitial ⟨⟨Nat.zero_le _, h.sound.finish, h.sound.capacity⟩, ?_, fun ended he => ?_⟩ rfl
    · rw [hbytes]
      exact Text.words_blank Text.dropBlanks_nil
    · exact ⟨(Option.some.inj he).symm, rfl, hbytes⟩

theorem Unread.trim (h : r.Unread s ws) : { r with held := Text.dropBlanks r.held }.Unread s ws := by
  refine ⟨h.sound.shorten (Text.length_dropBlanks_le _), ?_, fun ended he => ?_⟩
  · rw [Text.words_dropBlanks_append, h.words]
  · obtain ⟨heq, hheld, hbytes⟩ := h.ended ended he
    exact ⟨heq, by rw [hheld, Text.dropBlanks_nil], hbytes⟩

theorem Unread.makeRoom (h : r.Unread s ws) {r' : WordReader} (hroom : r.makeRoom = some r') : r'.Unread s ws := by
  obtain ⟨hsound, hheld, -⟩ := h.sound.makeRoom hroom
  refine ⟨hsound, hheld ▸ h.words, fun ended he => ?_⟩
  rw [makeRoom_ended hroom] at he
  exact hheld ▸ h.ended ended he

theorem Unread.fill (h : r.Unread s ws) (hended : r.ended = none) (hroom : r.finish < r.capacity) {bytes : List UInt8}
    (hread : s.read r.room = some (bytes, s')) : (r.fill bytes).Unread s' ws := by
  obtain ⟨hbytes, hle⟩ := Source.bytes_read hread
  refine ⟨h.sound.fill hroom hle, ?_, fun ended he => ?_⟩
  · rw [WordReader.fill, List.append_assoc, ← hbytes, h.words]
  · rw [show (r.fill bytes).ended = none from hended] at he
    cases he

/-- The first word is found however it is divided, unless it is too long. -/
theorem Unread.seek (h : r.Unread s ws) (hended : r.ended = none) : Answer s ws (r.seek s) := by
  fun_induction WordReader.seek r s with
  | case1 r s word rest hcut => exact h.cut hcut hended
  | case2 r s hcut trimmed hroom =>
    have hfull : (Text.dropBlanks r.held).length = maxCapacity := h.trim.sound.makeRoom_none hroom
    obtain ⟨w, ws', hwords, hneed⟩ := Text.words_of_cutWord_none hcut (by rw [hfull]; decide) s.bytes
    obtain rfl := hwords.symm.trans h.words
    exact .tooLong (by omega)
  | case3 r s hcut trimmed r' hroom bytes rest hread ih =>
    obtain ⟨-, -, hlt⟩ := h.trim.sound.makeRoom hroom
    have hopen : r'.ended = none := (makeRoom_ended hroom).trans hended
    exact .congr (read_failure hread) (ih ((h.trim.makeRoom hroom).fill hopen hlt hread) hopen)
  | case4 r s hcut trimmed r' hroom hread word last hlast =>
    obtain ⟨hsound, hheld, hlt⟩ := h.trim.sound.makeRoom hroom
    have hlength := hsound.held
    have hcapacity := hsound.capacity_le
    have hnone : Text.cutWord r'.held = none := by rw [hheld, Text.cutWord, Text.dropBlanks_idem, ← Text.cutWord, hcut]
    have hanswer := (h.trim.makeRoom hroom).last hnone (by omega) (Source.bytes_of_read_none hread)
    rwa [hlast] at hanswer

/-- The next word of a reader is the first of those still to come. -/
theorem Unread.next (h : r.Unread s ws) : Answer s ws (r.next s) := by
  rcases hended : r.ended with _ | ended
  · rw [WordReader.next, hended]
    exact h.seek hended
  · obtain ⟨rfl, hheld, hbytes⟩ := h.ended ended hended
    have hcut : Text.cutWord r.held = none := by rw [hheld, Text.cutWord_nil]
    rw [WordReader.next, hended]
    exact h.last hcut (by rw [hheld]; decide) hbytes

theorem unread_fresh (s : Source) : ({} : WordReader).Unread s (Text.words (Text.characters s.bytes)) :=
  ⟨⟨Nat.le_refl 0, Nat.le_refl 0, Or.inl rfl⟩, rfl, fun ended he => by cases he⟩

end Windows

end WordReader

end TapeCode
