import Mathlib.Data.BitVec
import Mathlib.Data.List.Basic
import Mathlib.Data.List.TakeWhile

/-!
# Strings that end at a zero

The bytes from a pointer on are a list. A string is what stands there before the first zero, or all
of it: the end of the list counts as a zero, so that a list without one is the string itself.
-/

namespace CStrings

universe u

variable {α : Type u} [Zero α] [DecidableEq α]

/-- The string that starts here. -/
def cstr (bytes : List α) : List α := bytes.takeWhile (· ≠ 0)

/-- Its characters among the first `n` bytes. -/
def chars (n : Nat) (bytes : List α) : List α := cstr (bytes.take n)

/-- Whether `strncmp` finds no difference. -/
def strncmp : Nat → List α → List α → Bool
  | 0, _, _ => true
  | n + 1, a, b =>
    if a.headD 0 ≠ b.headD 0 then false
    else if a.headD 0 = 0 then true
    else strncmp n a.tail b.tail

/-- The `n` bytes that `strncpy` writes: past the end of the string they are zeros. -/
def strncpy : Nat → List α → List α
  | 0, _ => []
  | n + 1, src =>
    if src.headD 0 = 0 then 0 :: strncpy n src else src.headD 0 :: strncpy n src.tail

/-- The place of a character in the string. -/
def strchr (c : α) (bytes : List α) : Option Nat := (cstr bytes).findIdx? (· = c)

def strlen (bytes : List α) : Nat := (cstr bytes).length

section Strings

variable {n m : Nat} {a b bytes : List α} {c : α}

@[simp] theorem cstr_nil : cstr ([] : List α) = [] := rfl

@[simp] theorem cstr_cons_zero : cstr (0 :: bytes) = [] := by
  rw [cstr, List.takeWhile_cons_of_neg (by simp)]

theorem cstr_cons (h : c ≠ 0) : cstr (c :: bytes) = c :: cstr bytes := by
  rw [cstr, List.takeWhile_cons_of_pos (by simpa using h), cstr]

theorem zero_not_mem_cstr : (0 : α) ∉ cstr bytes := by
  intro h
  have hne := List.mem_takeWhile_imp h
  simp at hne

theorem cstr_of_not_mem (h : (0 : α) ∉ bytes) : cstr bytes = bytes := by
  rw [cstr, List.takeWhile_eq_self_iff]
  intro c hc
  have hne : c ≠ 0 := by
    rintro rfl
    exact h hc
  simpa using hne

/-- A zero ends the string. -/
theorem cstr_append_zero (h : (0 : α) ∉ a) : cstr (a ++ 0 :: b) = a := by
  induction a with
  | nil => exact cstr_cons_zero
  | cons c a ih =>
    rw [List.mem_cons, not_or] at h
    rw [List.cons_append, cstr_cons (Ne.symm h.1), ih h.2]

/-- Where there is a zero, it follows the string. -/
theorem exists_cstr_append (h : (0 : α) ∈ bytes) : ∃ more, bytes = cstr bytes ++ 0 :: more := by
  induction bytes with
  | nil => cases h
  | cons c bytes ih =>
    by_cases hc : c = 0
    · rw [hc, cstr_cons_zero]
      exact ⟨bytes, rfl⟩
    · obtain ⟨more, hmore⟩ := ih ((List.mem_cons.mp h).resolve_left (Ne.symm hc))
      refine ⟨more, ?_⟩
      rw [cstr_cons hc, List.cons_append, ← hmore]

/-- Where there is none among the first `n` bytes, the string is no shorter. -/
theorem le_strlen_of_not_mem (h : (0 : α) ∉ bytes.take n) (long : n ≤ bytes.length) :
    n ≤ strlen bytes := by
  induction bytes generalizing n with
  | nil => exact Nat.le_trans long (Nat.zero_le _)
  | cons c bytes ih =>
    cases n with
    | zero => exact Nat.zero_le _
    | succ n =>
      rw [List.take_succ_cons, List.mem_cons, not_or] at h
      rw [strlen, cstr_cons (Ne.symm h.1), List.length_cons]
      exact Nat.succ_le_succ (ih h.2 (Nat.le_of_succ_le_succ long))

theorem chars_zero : chars 0 bytes = [] := by
  rw [chars, List.take_zero, cstr_nil]

theorem chars_succ_nil : chars n ([] : List α) = [] := by
  rw [chars, List.take_nil, cstr_nil]

theorem chars_succ_zero : chars n (0 :: bytes) = [] := by
  cases n with
  | zero => exact chars_zero
  | succ n => rw [chars, List.take_succ_cons, cstr_cons_zero]

theorem chars_succ_cons (h : c ≠ 0) : chars (n + 1) (c :: bytes) = c :: chars n bytes := by
  rw [chars, List.take_succ_cons, cstr_cons h, chars]

theorem length_chars_le : (chars n bytes).length ≤ n :=
  Nat.le_trans (List.takeWhile_prefix _).length_le (List.length_take_le n bytes)

/-- Fewer bytes give the beginning of the same string. -/
theorem chars_eq_take : chars n bytes = (cstr bytes).take n := by
  induction bytes generalizing n with
  | nil => rw [chars_succ_nil, cstr_nil, List.take_nil]
  | cons c bytes ih =>
    by_cases hc : c = 0
    · rw [hc, chars_succ_zero, cstr_cons_zero, List.take_nil]
    cases n with
    | zero => rw [List.take_zero, chars_zero]
    | succ n => rw [chars_succ_cons hc, cstr_cons hc, List.take_succ_cons, ih]

theorem take_chars (h : m ≤ n) : (chars n bytes).take m = chars m bytes := by
  rw [chars_eq_take, chars_eq_take, List.take_take, Nat.min_eq_left h]

theorem chars_eq_of_length (h : m ≤ n) (short : (chars n bytes).length ≤ m) :
    chars n bytes = chars m bytes := by
  rw [← take_chars h, List.take_of_length_le short]

theorem chars_eq_cstr (h : bytes.length ≤ n) : chars n bytes = cstr bytes := by
  rw [chars, List.take_of_length_le h]

/-- `strncmp` compares the strings as far as `n` characters. -/
theorem strncmp_iff : strncmp n a b = true ↔ chars n a = chars n b := by
  induction n generalizing a b with
  | zero => simp [strncmp, chars_zero]
  | succ n ih =>
    rcases a with _ | ⟨x, a⟩ <;> rcases b with _ | ⟨y, b⟩
    · simp [strncmp]
    · by_cases hy : y = 0
      · simp [strncmp, hy, chars_succ_nil, chars_succ_zero]
      · simp [strncmp, Ne.symm hy, chars_succ_nil, chars_succ_cons hy]
    · by_cases hx : x = 0
      · simp [strncmp, hx, chars_succ_nil, chars_succ_zero]
      · simp [strncmp, hx, chars_succ_nil, chars_succ_cons hx]
    · by_cases hx : x = 0
      · by_cases hy : y = 0
        · simp [strncmp, hx, hy, chars_succ_zero]
        · simp [strncmp, hx, Ne.symm hy, chars_succ_zero, chars_succ_cons hy]
      · by_cases hy : y = 0
        · simp [strncmp, hx, hy, chars_succ_zero, chars_succ_cons hx]
        · by_cases hxy : x = y
          · simp [strncmp, hxy, hy, ih, chars_succ_cons hy]
          · simp [strncmp, hxy, chars_succ_cons hx, chars_succ_cons hy]

/-- Compared as far as the first string goes, the second begins with it. -/
theorem strncmp_strlen_iff : strncmp (strlen a) a b = true ↔ cstr a <+: cstr b := by
  rw [strncmp_iff, chars_eq_take, chars_eq_take, strlen, List.take_length, List.prefix_iff_eq_take]

@[simp] theorem length_strncpy : (strncpy n bytes).length = n := by
  induction n generalizing bytes with
  | zero => rfl
  | succ n ih =>
    rw [strncpy]
    split <;> rw [List.length_cons, ih]

/-- A string that fits is copied whole, and zeros after it. -/
theorem strncpy_eq (nonzero : (0 : α) ∉ a) (fits : a.length ≤ n) :
    strncpy n a = a ++ List.replicate (n - a.length) 0 := by
  induction n generalizing a with
  | zero => simp [List.length_eq_zero_iff.mp (Nat.le_zero.mp fits), strncpy]
  | succ n ih =>
    rcases a with _ | ⟨c, a⟩
    · have hnil := @ih [] nonzero (Nat.zero_le n)
      simp only [List.nil_append, List.length_nil, Nat.sub_zero] at hnil ⊢
      rw [strncpy, List.headD_nil, if_pos rfl, hnil, List.replicate_succ]
    · rw [List.mem_cons, not_or] at nonzero
      rw [List.length_cons] at fits
      rw [strncpy, List.headD_cons, if_neg (Ne.symm nonzero.1), List.tail_cons,
        ih nonzero.2 (by omega), List.length_cons, Nat.add_sub_add_right, List.cons_append]

/-- The first characters of a string are copied first. -/
theorem take_strncpy (nonzero : (0 : α) ∉ a) (room : m ≤ n) (long : m ≤ a.length) :
    (strncpy n a).take m = a.take m := by
  induction m generalizing n a with
  | zero => rw [List.take_zero, List.take_zero]
  | succ m ih =>
    obtain ⟨n, rfl⟩ := Nat.exists_eq_succ_of_ne_zero (Nat.ne_zero_of_lt room)
    rcases a with _ | ⟨c, a⟩
    · exact absurd long (Nat.not_succ_le_zero m)
    · rw [List.mem_cons, not_or] at nonzero
      rw [strncpy, List.headD_cons, if_neg (Ne.symm nonzero.1), List.tail_cons, List.take_succ_cons,
        List.take_succ_cons, ih nonzero.2 (Nat.le_of_succ_le_succ room)
          (Nat.le_of_succ_le_succ long)]

/-- The string that `strncpy` leaves before a zero. -/
theorem cstr_strncpy_zero : cstr (strncpy n bytes ++ 0 :: b) = chars n bytes := by
  induction n generalizing bytes with
  | zero => rw [strncpy, List.nil_append, cstr_cons_zero, chars_zero]
  | succ n ih =>
    rw [strncpy]
    rcases bytes with _ | ⟨c, bytes⟩
    · simp [chars_succ_nil]
    · by_cases hc : c = 0
      · simp [hc, chars_succ_zero]
      · simp [hc, cstr_cons, chars_succ_cons, ih]

theorem length_cstr_lt (h : (0 : α) ∈ bytes) : (cstr bytes).length < bytes.length := by
  apply Nat.lt_of_le_of_ne (List.takeWhile_prefix _).length_le
  intro heq
  have hself : cstr bytes = bytes := (List.takeWhile_prefix _).eq_of_length heq
  rw [← hself] at h
  exact zero_not_mem_cstr h

theorem strchr_none : strchr c bytes = none ↔ c ∉ cstr bytes := by
  rw [strchr, List.findIdx?_eq_none_iff]
  simp only [decide_eq_false_iff_not]
  exact ⟨fun h hc => h c hc rfl, fun h x hx heq => h (heq ▸ hx)⟩

/-- The string up to and including the character that was found. -/
theorem chars_strchr {k : Nat} (h : strchr c bytes = some k) :
    c ∈ cstr bytes ∧ chars (k + 1) bytes = (cstr bytes).takeWhile (· ≠ c) ++ [c] := by
  rw [strchr] at h
  rw [chars_eq_take]
  generalize cstr bytes = string at h ⊢
  induction string generalizing k with
  | nil => cases h
  | cons x string ih =>
    rw [List.findIdx?_cons] at h
    by_cases hx : x = c
    · rw [if_pos (by simpa using hx)] at h
      cases h
      rw [hx, List.takeWhile_cons_of_neg (by simp)]
      exact ⟨List.mem_cons_self, rfl⟩
    · rw [if_neg (by simpa using hx)] at h
      obtain ⟨j, hj, rfl⟩ := Option.map_eq_some_iff.mp h
      obtain ⟨hmem, htake⟩ := ih hj
      rw [List.takeWhile_cons_of_pos (by simpa using hx), List.take_succ_cons, htake]
      exact ⟨List.mem_cons_of_mem x hmem, rfl⟩

theorem length_chars_strchr {k : Nat} (h : strchr c bytes = some k) :
    (chars (k + 1) bytes).length = k + 1 := by
  have hlt := (List.findIdx?_eq_some_iff_findIdx_eq.mp h).1
  rw [chars_eq_take, List.length_take, Nat.min_eq_left hlt]

end Strings

/-! ## Tables of words -/

/-- No word of the table begins with another one. -/
def PrefixFree {β : Type u} (table : List (List β)) : Prop := table.Pairwise fun a b => ¬ a <+: b ∧ ¬ b <+: a

section Words

variable {β : Type u} {table : List (List β)} {bytes word word' : List β} {i j : Nat}

/-- At most one word is the beginning of a string. -/
theorem PrefixFree.unique (free : PrefixFree table) (hi : table[i]? = some word)
    (hj : table[j]? = some word') (h : word <+: bytes) (h' : word' <+: bytes) : i = j := by
  obtain ⟨hi', rfl⟩ := List.getElem?_eq_some_iff.mp hi
  obtain ⟨hj', rfl⟩ := List.getElem?_eq_some_iff.mp hj
  rw [PrefixFree, List.pairwise_iff_getElem] at free
  have hcompare := List.prefix_or_prefix_of_prefix h h'
  rcases Nat.lt_trichotomy i j with hlt | heq | hgt
  · have hfree := free i j hi' hj' hlt
    exact absurd hcompare (not_or_intro hfree.1 hfree.2)
  · exact heq
  · have hfree := free j i hj' hi' hgt
    exact absurd hcompare (not_or_intro hfree.2 hfree.1)

/-- Words stay apart with more in front of them. -/
theorem PrefixFree.of_drop (n : Nat) (free : PrefixFree (table.map (List.drop n))) :
    PrefixFree table := by
  rw [PrefixFree, List.pairwise_map] at free
  apply free.imp
  rintro a b ⟨h, h'⟩
  exact ⟨fun hab => h (hab.drop n), fun hba => h' (hba.drop n)⟩

/-- A search for the first word that a string begins with finds the only one. -/
theorem PrefixFree.findIdx?_eq_some_iff (free : PrefixFree table) {p : List β → Bool}
    (hp : ∀ word ∈ table, p word = true ↔ word <+: bytes) :
    table.findIdx? p = some i ↔ ∃ word, table[i]? = some word ∧ word <+: bytes := by
  rw [List.findIdx?_eq_some_iff_getElem]
  constructor
  · rintro ⟨hi, hword, -⟩
    exact ⟨_, List.getElem?_eq_getElem hi, (hp _ (List.getElem_mem hi)).mp hword⟩
  · rintro ⟨word, hword, h⟩
    obtain ⟨hi, rfl⟩ := List.getElem?_eq_some_iff.mp hword
    refine ⟨hi, (hp _ (List.getElem_mem hi)).mpr h, ?_⟩
    intro j hj hfound
    have hlt := Nat.lt_trans hj hi
    have heq := free.unique (List.getElem?_eq_getElem hlt) hword
      ((hp _ (List.getElem_mem hlt)).mp hfound) h
    exact absurd heq (Nat.ne_of_lt hj)

end Words

/-- A word of the table is the beginning of the string. -/
def Begins (table : List (List α)) (bytes : List α) : Prop := ∃ word ∈ table, word <+: cstr bytes

/-- The string begins with a word of the table and goes on behind it. -/
def Extends (table : List (List α)) (bytes : List α) : Prop :=
  ∃ word ∈ table, word <+: cstr bytes ∧ word ≠ cstr bytes

section Tables

variable {table : List (List α)} {bytes : List α}

/-- A string that begins with a word is that word or extends it. -/
theorem Begins.mem_or_extends (h : Begins table bytes) :
    cstr bytes ∈ table ∨ Extends table bytes := by
  obtain ⟨word, hmem, hword⟩ := h
  by_cases heq : word = cstr bytes
  · exact Or.inl (heq ▸ hmem)
  · exact Or.inr ⟨word, hmem, hword, heq⟩

theorem Extends.begins (h : Extends table bytes) : Begins table bytes := by
  obtain ⟨word, hmem, hword, -⟩ := h
  exact ⟨word, hmem, hword⟩

theorem Extends.not_mem (free : PrefixFree table) (h : Extends table bytes) :
    cstr bytes ∉ table := by
  obtain ⟨word, hmem, hword, hne⟩ := h
  intro hself
  obtain ⟨i, hi⟩ := List.mem_iff_getElem?.mp hmem
  obtain ⟨j, hj⟩ := List.mem_iff_getElem?.mp hself
  obtain rfl := free.unique hi hj hword (List.prefix_refl _)
  rw [hi] at hj
  exact hne (Option.some.inj hj)

end Tables

end CStrings
