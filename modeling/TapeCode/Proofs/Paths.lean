import Mathlib.Data.List.TakeWhile
import TapeCode.Tree

/-!
Where paths lead. A walk passes directories only, so it comes to the same place in every tree with the same directories.
A path that has a place and is no directory ends in an ordinary name, and its place is that name in the directory that the
names before it lead to.
-/

namespace TapeCode

/-! ### Names -/

namespace Path

theorem splitSlashes_ne_nil (cs : List Char) : splitSlashes cs ≠ [] := by
  fun_cases splitSlashes cs <;> simp [*]

theorem slash_not_mem (cs : List Char) : ∀ name ∈ splitSlashes cs, '/' ∉ name := by
  fun_induction splitSlashes cs with
  | case1 => simp
  | case2 rest ih => simpa using ih
  | case3 c rest hc hnil ih => simpa using Ne.symm hc
  | case4 c rest hc name names hsplit ih =>
    rw [hsplit] at ih
    obtain ⟨hname, hnames⟩ := List.forall_mem_cons.mp ih
    refine List.forall_mem_cons.mpr ⟨?_, hnames⟩
    simpa [hname] using Ne.symm hc

/-- The last name is empty only behind a slash. -/
theorem getLast?_splitSlashes (cs : List Char) (h : (splitSlashes cs).getLast? = some []) :
    cs = [] ∨ cs.getLast? = some '/' := by
  have hcons : ∀ {c : Char} {rest : List Char}, rest.getLast? = some '/' → (c :: rest).getLast? = some '/' := by
    intro c rest hrest
    rw [List.getLast?_cons, hrest, Option.getD_some]
  fun_induction splitSlashes cs with
  | case1 => exact Or.inl rfl
  | case2 rest ih =>
    rw [List.getLast?_cons_of_ne_nil (splitSlashes_ne_nil rest)] at h
    rcases ih h with rfl | hrest
    · exact Or.inr rfl
    · exact Or.inr (hcons hrest)
  | case3 c rest hc hnil ih => exact absurd hnil (splitSlashes_ne_nil rest)
  | case4 c rest hc name names hsplit ih =>
    rcases names with _ | ⟨name', names⟩
    · simp at h
    · rw [List.getLast?_cons_cons] at h
      rw [hsplit, List.getLast?_cons_cons] at ih
      rcases ih h with rfl | hrest
      · rw [splitSlashes] at hsplit
        cases hsplit
      · exact Or.inr (hcons hrest)

end Path

/-! ### Entries -/

namespace Tree

section Entries
variable {t : Tree} {l l' : Location} {e : Entry}

theorem get?_ancestor (t : Tree) (h : l.isAncestor = true) : t.get? l = some .directory :=
  if_pos h

theorem get?_plain (t : Tree) (h : l.isAncestor = false) : t.get? l = t.entries.lookup l :=
  if_neg (by rw [h]; exact Bool.false_ne_true)

theorem lookup_overwrite (entries : List (Location × Entry)) (e : Entry) (h : l' ≠ l) :
    (entries.map fun x => if x.1 = l then (l, e) else x).lookup l' = entries.lookup l' := by
  induction entries with
  | nil => rfl
  | cons x entries ih =>
    rw [List.map_cons, List.lookup_cons, List.lookup_cons, ih]
    by_cases hx : x.1 = l
    · rw [if_pos hx, hx, beq_false_of_ne h]
    · rw [if_neg hx]

theorem lookup_overwrite_self (entries : List (Location × Entry)) (e : Entry) (h : ∃ x ∈ entries, x.1 = l) :
    (entries.map fun x => if x.1 = l then (l, e) else x).lookup l = some e := by
  induction entries with
  | nil =>
    obtain ⟨x, hx, -⟩ := h
    cases hx
  | cons x entries ih =>
    by_cases hx : x.1 = l
    · rw [List.map_cons, if_pos hx, List.lookup_cons_self]
    · obtain ⟨y, hy, hyl⟩ := h
      rcases List.mem_cons.mp hy with rfl | hy
      · exact absurd hyl hx
      · rw [List.map_cons, if_neg hx, List.lookup_cons, beq_false_of_ne (Ne.symm hx), ih ⟨y, hy, hyl⟩]

theorem lookup_free {entries : List (Location × Entry)} :
    entries.lookup l = none ↔ entries.any (·.1 = l) = false := by
  rw [List.lookup_eq_none_iff, List.any_eq_false]
  constructor
  · intro h x hx heq
    have hne := h x hx
    rw [of_decide_eq_true heq, bne_self_eq_false] at hne
    cases hne
  · intro h x hx
    exact bne_iff_ne.mpr fun heq => h x hx (decide_eq_true heq.symm)

theorem get?_put (t : Tree) (e : Entry) (hplain : l.isAncestor = false) : (t.put l e).get? l = some e := by
  rw [get?_plain _ hplain, put]
  split
  · next hany =>
    refine lookup_overwrite_self t.entries e ?_
    simpa using hany
  · next hany => rw [List.lookup_append, lookup_free.mpr (Bool.eq_false_iff.mpr hany), List.lookup_cons_self, Option.none_or]

theorem get?_put_other (t : Tree) (e : Entry) (h : l' ≠ l) : (t.put l e).get? l' = t.get? l' := by
  rcases hplain : l'.isAncestor with _ | _
  · rw [get?_plain _ hplain, get?_plain _ hplain, put]
    split
    · exact lookup_overwrite t.entries e h
    · rw [List.lookup_append, List.lookup_cons, beq_false_of_ne h, List.lookup_nil, Option.or_none]
  · rw [get?_ancestor _ hplain, get?_ancestor _ hplain]

theorem isAncestor_of_get? (h : t.get? l ≠ some .directory) : l.isAncestor = false :=
  Bool.eq_false_iff.mpr fun hancestor => h (get?_ancestor t hancestor)

theorem isAncestor_of_free (h : t.get? l = none) : l.isAncestor = false :=
  isAncestor_of_get? (t := t) (by simp [h])

theorem any_of_free (h : t.get? l = none) : t.entries.any (·.1 = l) = false := by
  rwa [get?_plain t (isAncestor_of_free h), lookup_free] at h

theorem put_free (h : t.get? l = none) (e : Entry) : t.put l e = ⟨t.entries ++ [(l, e)]⟩ := by
  rw [put, any_of_free h]
  rfl

theorem erase_put (h : t.get? l = none) (e : Entry) : (t.put l e).erase l = t := by
  have hsame : t.entries.filter (fun x => x.1 ≠ l) = t.entries := by
    have hfree := any_of_free h
    rw [List.any_eq_false] at hfree
    exact List.filter_eq_self.mpr (by simpa using hfree)
  rw [put_free h, erase, List.filter_append, hsame]
  simp

theorem put_put (h : t.get? l = none) (e e' : Entry) : (t.put l e).put l e' = t.put l e' := by
  have hsame : (t.entries.map fun x => if x.1 = l then (l, e') else x) = t.entries := by
    have hfree := any_of_free h
    rw [List.any_eq_false] at hfree
    exact (List.map_congr_left fun x hx => if_neg (by simpa using hfree x hx)).trans (List.map_id _)
  rw [put_free h, put_free h, put, if_pos (by simp), List.map_append, hsame]
  simp

end Entries

/-! ### Walks -/

/-- A name of something in a directory. -/
def Ordinary (name : String) : Prop :=
  name ≠ "" ∧ name ≠ "." ∧ name ≠ ".."

/-- Where a name leads from a directory. -/
def follow (l : Location) (name : String) : Location :=
  if name = "" ∨ name = "." then l else if name = ".." then l.parent else l ++ [name]

/-- Two trees have the same directories. -/
def Alike (t t' : Tree) : Prop :=
  ∀ l, t.get? l = some .directory ↔ t'.get? l = some .directory

section Walks
variable {t t' : Tree} {l l' : Location} {name path : String} {names rest : List String}

theorem follow_ordinary (h : Ordinary name) : follow l name = l ++ [name] := by
  rw [follow, if_neg (not_or.mpr ⟨h.1, h.2.1⟩), if_neg h.2.2]

theorem walk_cons : t.walk l (name :: rest) = .ok l' ↔
    t.get? l = some .directory ∧
      (Ordinary name → name.utf8ByteSize ≤ maxName ∧ (t.get? (l ++ [name])).isSome = true) ∧
      t.walk (follow l name) rest = .ok l' := by
  rw [walk]
  rcases t.get? l with _ | _ | bytes
  · simp
  · by_cases hstay : name = "" ∨ name = "."
    · simp only [if_pos hstay, follow, true_and]
      exact ⟨fun h => ⟨fun hname => absurd hstay (not_or.mpr ⟨hname.1, hname.2.1⟩), h⟩, fun h => h.2⟩
    · by_cases hup : name = ".."
      · simp only [if_neg hstay, if_pos hup, follow, true_and]
        exact ⟨fun h => ⟨fun hname => absurd hup hname.2.2, h⟩, fun h => h.2⟩
      · have hordinary : Ordinary name := ⟨fun h => hstay (Or.inl h), fun h => hstay (Or.inr h), hup⟩
        simp only [if_neg hstay, if_neg hup, follow_ordinary hordinary, true_and]
        by_cases hlong : maxName < name.utf8ByteSize
        · simp [hlong, hordinary, Nat.not_le.mpr hlong]
        · rcases hnone : t.get? (l ++ [name]) with _ | e
          · simp [hlong, hordinary]
          · simp [hlong, hordinary, Nat.not_lt.mp hlong]
  · simp

theorem walk_append : t.walk l (names ++ rest) = .ok l' ↔
    ∃ u, t.walk l names = .ok u ∧ t.walk u rest = .ok l' := by
  induction names generalizing l with
  | nil => simp [walk]
  | cons name names ih =>
    rw [List.cons_append, walk_cons, ih]
    constructor
    · rintro ⟨hdirectory, hname, u, hu, hrest⟩
      exact ⟨u, walk_cons.mpr ⟨hdirectory, hname, hu⟩, hrest⟩
    · rintro ⟨u, hu, hrest⟩
      obtain ⟨hdirectory, hname, hu⟩ := walk_cons.mp hu
      exact ⟨hdirectory, hname, u, hu, hrest⟩

/-- A last empty name asks for a directory. -/
theorem walk_directory : t.walk l (names ++ [""]) = .ok l' ↔ t.walk l names = .ok l' ∧ t.get? l' = some .directory := by
  rw [walk_append]
  constructor
  · rintro ⟨u, hu, hrest⟩
    obtain ⟨hdirectory, -, hlast⟩ := walk_cons.mp hrest
    obtain rfl : u = l' := Except.ok.inj hlast
    exact ⟨hu, hdirectory⟩
  · rintro ⟨hu, hdirectory⟩
    exact ⟨l', hu, walk_cons.mpr ⟨hdirectory, fun h => absurd rfl h.1, rfl⟩⟩

theorem walk_start (h : t.walk l (names ++ [""]) = .ok l') : t.get? l = some .directory := by
  rcases names with _ | ⟨name, names⟩
  · exact (walk_cons.mp h).1
  · exact (walk_cons.mp h).1

/-- A walk to a directory passes directories only. -/
theorem Alike.walk (h : t.Alike t') (hwalk : t.walk l (names ++ [""]) = .ok l') :
    t'.walk l (names ++ [""]) = .ok l' := by
  induction names generalizing l with
  | nil =>
    obtain ⟨hdirectory, hname, hrest⟩ := walk_cons.mp hwalk
    exact walk_cons.mpr ⟨(h l).mp hdirectory, fun h => absurd rfl h.1, hrest⟩
  | cons name names ih =>
    obtain ⟨hdirectory, hname, hrest⟩ := walk_cons.mp hwalk
    refine walk_cons.mpr ⟨(h l).mp hdirectory, fun hordinary => ⟨(hname hordinary).1, ?_⟩, ih hrest⟩
    rw [follow_ordinary hordinary] at hrest
    rw [(h _).mp (walk_start hrest)]
    rfl

/-- A place below directories: a walk from the origin of a path comes to no other. -/
inductive Within (t : Tree) : Location → Prop where
  | ancestor {l : Location} (h : l.isAncestor = true) : Within t l
  | child {l : Location} {name : String} (h : Within t l) (hdirectory : t.get? l = some .directory)
      (hname : Ordinary name) : Within t (l ++ [name])

theorem within_parent (h : t.Within l) : t.Within l.parent ∧ t.get? l.parent = some .directory := by
  cases h with
  | ancestor hancestor =>
    have hparent : l.parent.isAncestor = true := by
      unfold Location.parent
      split
      · exact hancestor
      · next hroot =>
        have hall : l.all (· = "..") = true := by simpa [Location.isAncestor, hroot] using hancestor
        rw [if_pos hall]
        simp only [Location.isAncestor, List.all_append, hall]
        rfl
    exact ⟨.ancestor hparent, get?_ancestor t hparent⟩
  | @child l name h hdirectory hname =>
    unfold Location.parent
    split
    · next hroot =>
      rw [hroot]
      exact ⟨.ancestor rfl, get?_ancestor t rfl⟩
    · rw [if_neg (by simp [hname.2.2]), List.dropLast_concat]
      exact ⟨h, hdirectory⟩

theorem Within.walk (h : t.Within l) (hwalk : t.walk l names = .ok l') : t.Within l' := by
  induction names generalizing l with
  | nil => exact Except.ok.inj hwalk ▸ h
  | cons name names ih =>
    obtain ⟨hdirectory, hname, hrest⟩ := walk_cons.mp hwalk
    refine ih ?_ hrest
    unfold follow
    split
    · exact h
    · next hstay =>
      split
      · exact (within_parent h).1
      · next hup => exact .child h hdirectory ⟨fun h => hstay (Or.inl h), fun h => hstay (Or.inr h), hup⟩

theorem within_origin (t : Tree) (path : String) : t.Within (origin path) := by
  unfold origin
  split
  · exact .ancestor rfl
  · exact .ancestor rfl

/-! ### Places -/

theorem find_eq_ok : t.find path = .ok l ↔
    checkPath path = .ok () ∧ t.walk (origin path) (Path.names path) = .ok l := by
  unfold find
  rcases hcheck : checkPath path with e | ⟨⟩
  · simp [bind, Except.bind]
  · simp [bind, Except.bind]

theorem look_eq_ok {e : Entry} : t.look path = .ok e ↔ ∃ l, t.find path = .ok l ∧ t.get? l = some e := by
  unfold look
  rcases hfind : t.find path with error | l
  · simp [bind, Except.bind]
  · rcases hget : t.get? l with _ | e'
    · simp [bind, Except.bind, hget]
    · simp [bind, Except.bind, hget]

theorem isDirectory_iff : t.isDirectory path = true ↔
    checkPath path = .ok () ∧ ∃ l, t.walk (origin path) (Path.names path ++ [""]) = .ok l := by
  have hlook : t.isDirectory path = true ↔ t.look path = .ok .directory := by
    unfold isDirectory
    split
    · next h => simp [h]
    · next h => simpa using h
  rw [hlook, look_eq_ok]
  simp only [find_eq_ok, walk_directory, and_assoc, exists_and_left]

theorem Alike.symm (h : t.Alike t') : t'.Alike t :=
  fun l => (h l).symm

theorem Alike.isDirectory (h : t.Alike t') (path : String) : t.isDirectory path = t'.isDirectory path := by
  rw [Bool.eq_iff_iff, isDirectory_iff, isDirectory_iff]
  constructor
  · rintro ⟨hcheck, l, hl⟩
    exact ⟨hcheck, l, h.walk hl⟩
  · rintro ⟨hcheck, l, hl⟩
    exact ⟨hcheck, l, h.symm.walk hl⟩

theorem target_eq_ok : t.target path = .ok l ↔ checkPath path = .ok () ∧
    (((Path.names path).reverse.dropWhile (· = "") = [] ∧ l = origin path) ∨
      ∃ name before u, (Path.names path).reverse.dropWhile (· = "") = name :: before ∧
        t.walk (origin path) (before.reverse ++ [""]) = .ok u ∧ name.utf8ByteSize ≤ maxName ∧
        path.toList.getLast? ≠ some '/' ∧ l = u ++ [name]) := by
  unfold target
  rcases hcheck : checkPath path with e | ⟨⟩
  · simp [bind, Except.bind]
  · rcases hnames : (Path.names path).reverse.dropWhile (· = "") with _ | ⟨name, before⟩
    · simp [bind, Except.bind, eq_comm]
    · simp only [bind, Except.bind]
      rcases hwalk : t.walk (origin path) (before.reverse ++ [""]) with e | u
      · simp [hwalk]
      · by_cases hlong : maxName < name.utf8ByteSize
        · simp [hwalk, hlong, Nat.not_le.mpr hlong]
        · by_cases hslash : path.toList.getLast? = some '/'
          · simp [hlong, hslash]
          · simp only [if_neg hlong, if_neg (show ¬(path.toList.getLast? == some '/') = true by simpa using hslash)]
            constructor
            · rintro ⟨⟩
              exact ⟨trivial, Or.inr ⟨name, before, u, rfl, hwalk, Nat.not_lt.mp hlong, hslash, rfl⟩⟩
            · rintro ⟨-, ⟨hnil, -⟩ | ⟨_, _, u', ⟨⟩, hu, -, -, rfl⟩⟩
              · cases hnil
              · rw [Except.ok.inj (hwalk.symm.trans hu)]

theorem Alike.target (h : t.Alike t') (htarget : t.target path = .ok l) : t'.target path = .ok l := by
  rw [target_eq_ok] at htarget ⊢
  obtain ⟨hcheck, hroot | ⟨name, before, u, hnames, hu, hrest⟩⟩ := htarget
  · exact ⟨hcheck, Or.inl hroot⟩
  · exact ⟨hcheck, Or.inr ⟨name, before, u, hnames, h.walk hu, hrest⟩⟩

theorem walk_empty (h : ∀ name ∈ names, name = "") (hdirectory : t.get? l = some .directory) : t.walk l names = .ok l := by
  induction names with
  | nil => rfl
  | cons name names ih =>
    obtain ⟨rfl, hnames⟩ := List.forall_mem_cons.mp h
    exact walk_cons.mpr ⟨hdirectory, fun hname => absurd rfl hname.1, ih hnames⟩

theorem isDirectory_of_empty (hcheck : checkPath path = .ok ())
    (h : (Path.names path).reverse.dropWhile (· = "") = []) : t.isDirectory path = true := by
  have hnames : ∀ name ∈ Path.names path, name = "" := by
    simpa using List.dropWhile_eq_nil_iff.mp h
  have horigin : t.get? (origin path) = some .directory := by
    unfold origin
    split
    · rfl
    · rfl
  exact isDirectory_iff.mpr ⟨hcheck, origin path, walk_directory.mpr ⟨walk_empty hnames horigin, horigin⟩⟩

theorem getLast?_names (hcheck : checkPath path = .ok ()) (hslash : path.toList.getLast? ≠ some '/') :
    (Path.names path).getLast? ≠ some "" := by
  intro hlast
  rw [Path.names, List.getLast?_map] at hlast
  obtain ⟨cs, hcs, hempty⟩ := Option.map_eq_some_iff.mp hlast
  obtain rfl : cs = [] := by simpa using hempty
  rcases Path.getLast?_splitSlashes path.toList hcs with hnil | hend
  · obtain rfl : path = "" := by simpa using hnil
    cases hcheck
  · exact hslash hend

/-- A path that does not end with a slash has a last name. -/
theorem names_of_last (hcheck : checkPath path = .ok ()) (hslash : path.toList.getLast? ≠ some '/') {before : List String}
    (h : (Path.names path).reverse.dropWhile (· = "") = name :: before) :
    Path.names path = before.reverse ++ [name] ∧ name ≠ "" := by
  have hlast := getLast?_names hcheck hslash
  rw [← List.head?_reverse] at hlast
  rcases hnames : (Path.names path).reverse with _ | ⟨last, others⟩
  · rw [hnames] at h
    cases h
  · rw [hnames] at h hlast
    have hne : last ≠ "" := by simpa using hlast
    rw [List.dropWhile_cons_of_neg (by simpa using hne)] at h
    obtain ⟨rfl, rfl⟩ := List.cons.inj h
    exact ⟨by rw [← List.reverse_cons, ← hnames, List.reverse_reverse], hne⟩

/-- What stands at the place of a path that is no directory is found there. -/
theorem find_target (h : t.target path = .ok l) (hfile : t.isDirectory path = false) (hsome : (t.get? l).isSome = true) :
    t.find path = .ok l := by
  obtain ⟨hcheck, ⟨hnames, -⟩ | ⟨name, before, u, hnames, hu, hshort, hslash, rfl⟩⟩ := target_eq_ok.mp h
  · rw [isDirectory_of_empty hcheck hnames] at hfile
    cases hfile
  · obtain ⟨hlast, hne⟩ := names_of_last hcheck hslash hnames
    obtain ⟨hwalk, hdirectory⟩ := walk_directory.mp hu
    -- A last name that leads to a directory would make the path one.
    have hstays : ¬(¬Ordinary name ∧ t.get? (follow u name) = some .directory) := by
      rintro ⟨hname, hfollow⟩
      refine absurd (isDirectory_iff.mpr ⟨hcheck, follow u name, walk_directory.mpr ⟨?_, hfollow⟩⟩)
        (Bool.eq_false_iff.mp hfile)
      rw [hlast, walk_append]
      exact ⟨u, hwalk, walk_cons.mpr ⟨hdirectory, fun h => absurd h hname, rfl⟩⟩
    have hordinary : Ordinary name := by
      refine ⟨hne, ?_, ?_⟩
      · rintro rfl
        exact hstays ⟨fun h => h.2.1 rfl, hdirectory⟩
      · rintro rfl
        exact hstays ⟨fun h => h.2.2 rfl, (within_parent ((within_origin t path).walk hwalk)).2⟩
    refine find_eq_ok.mpr ⟨hcheck, ?_⟩
    rw [hlast, walk_append]
    refine ⟨u, hwalk, walk_cons.mpr ⟨hdirectory, fun _ => ⟨hshort, hsome⟩, ?_⟩⟩
    rw [follow_ordinary hordinary]
    rfl

theorem get?_target (h : t.target path = .ok l) (hfile : t.isDirectory path = false) : t.get? l ≠ some .directory := by
  intro hdirectory
  have hfind := find_target h hfile (by rw [hdirectory]; rfl)
  obtain ⟨hcheck, hwalk⟩ := find_eq_ok.mp hfind
  rw [isDirectory_iff.mpr ⟨hcheck, l, walk_directory.mpr ⟨hwalk, hdirectory⟩⟩] at hfile
  cases hfile

/-- Only the root has a slash for a name. -/
theorem isDirectory_of_slash (hcheck : checkPath path = .ok ()) (h : (Path.base path).toList.contains '/' = true) :
    t.isDirectory path = true := by
  unfold Path.base at h
  split at h
  · next name before hnames =>
    have hmem : name ∈ Path.names path := by
      have hdrop : name ∈ (Path.names path).reverse.dropWhile (· = "") := hnames ▸ List.mem_cons_self
      exact List.mem_reverse.mp ((List.dropWhile_sublist _).subset hdrop)
    obtain ⟨cs, hcs, rfl⟩ := List.mem_map.mp hmem
    simp [Path.slash_not_mem _ cs hcs] at h
  · next hnames => exact isDirectory_of_empty hcheck hnames

theorem alike_put (h : t.get? l ≠ some .directory) (bytes : List UInt8) : t.Alike (t.put l (.file bytes)) := by
  intro l'
  by_cases hl : l' = l
  · rw [hl, get?_put t _ (isAncestor_of_get? h)]
    exact ⟨fun hdirectory => absurd hdirectory h, fun hfile => by cases hfile⟩
  · rw [get?_put_other t _ hl]

end Walks

end Tree

end TapeCode
