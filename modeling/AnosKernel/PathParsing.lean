import AnosKernel.ConfigLoading

/-!
# Mount points and paths

`parse_file_path` of `system/path.c` over a buffer of bytes, with its two scans. An access outside
the buffer is a fault. `ConfigLoading` has the same function over what stands in a page.
-/

namespace PathParsing

open Bytes CStrings MessagePage VfsMounts

/-- `strnchr` from byte `i` on, with `left` bytes to go; none if it faults. -/
def strnchr (s : List Byte) (c : Byte) : Nat → Nat → Option (Option Nat)
  | _, 0 => some none
  | i, left + 1 =>
    match s[i]? with
    | none => none
    | some byte =>
      if byte = c then some (some i)
      else if byte = 0 then some none
      else strnchr s c (i + 1) left

/-- The search for the terminator, from byte `i` on. -/
def hasNul (input : List Byte) : Nat → Nat → Option Bool
  | _, 0 => some false
  | i, left + 1 =>
    match input[i]? with
    | none => none
    | some byte => if byte = 0 then some true else hasNul input (i + 1) left

/-- The buffer as it is left, and where the mount point and the path start in it if the input is
accepted; none if there is a fault. -/
def parseFilePath (input : List Byte) (inputLen : Nat) : Option (List Byte × Option (Nat × Nat)) :=
  if inputLen = 0 then some (input, none)
  else
    match hasNul input 0 inputLen with
    | none => none
    | some false => some (input, none)
    | some true =>
      match strnchr input colon 0 inputLen with
      | none => none
      | some none => some (input, none)
      | some (some place) =>
        if place = 0 then some (input, none)
        else
          match input[place + 1]? with
          | none => none
          | some next =>
            if next = 0 then some (input, none)
            else if place < input.length then
              some (input.set place 0, some (0, place + 1))
            else none

/-- The string in the buffer is `mountPoint:path`. -/
structure Splits (input mountPoint path : List Byte) : Prop where
  terminated : 0 ∈ input
  string : cstr input = mountPoint ++ colon :: path
  mount_ne_nil : mountPoint ≠ []
  colon_free : colon ∉ mountPoint
  path_ne_nil : path ≠ []

/-! ## The scans -/

section Scans

variable {s input mountPoint path rest : List Byte} {c : Byte} {i left : Nat}

theorem hasNul_eq (inside : i + left ≤ input.length) :
    hasNul input i left = some (decide (0 ∈ slice i left input)) := by
  induction left generalizing i with
  | zero => simp [hasNul, slice]
  | succ left ih =>
    have hi : i < input.length := by omega
    have hcut : slice i (left + 1) input = input[i] :: slice (i + 1) left input := by
      rw [slice, slice, List.drop_eq_getElem_cons hi, List.take_succ_cons]
    rw [hasNul, List.getElem?_eq_getElem hi, hcut]
    dsimp only
    by_cases hzero : input[i] = 0
    · rw [if_pos hzero, hzero]
      simp
    · rw [if_neg hzero, ih (by omega), decide_eq_decide.mpr]
      rw [List.mem_cons, or_iff_right (Ne.symm hzero)]

/-- The scan goes past bytes that are neither the character nor the end of the string. -/
theorem strnchr_skip (nonzero : 0 ∉ mountPoint) (free : c ∉ mountPoint)
    (h : s.drop i = mountPoint ++ rest) :
    strnchr s c i (mountPoint.length + left) = strnchr s c (i + mountPoint.length) left := by
  induction mountPoint generalizing i with
  | nil => rw [List.length_nil, Nat.zero_add, Nat.add_zero]
  | cons x mountPoint ih =>
    rw [List.mem_cons, not_or] at nonzero free
    have hbyte : s[i]? = some x := by
      rw [← List.head?_drop, h, List.cons_append, List.head?_cons]
    have hdrop : s.drop (i + 1) = mountPoint ++ rest := by
      rw [← List.drop_drop, h, List.cons_append, List.drop_succ_cons, List.drop_zero]
    rw [List.length_cons, Nat.add_right_comm, strnchr, hbyte]
    dsimp only
    rw [if_neg (Ne.symm free.1), if_neg (Ne.symm nonzero.1), ih nonzero.2 free.2 hdrop,
      Nat.add_assoc, Nat.add_comm 1]

theorem strnchr_found (nonzero : 0 ∉ mountPoint) (free : c ∉ mountPoint)
    (h : s.drop i = mountPoint ++ c :: rest) :
    strnchr s c i (mountPoint.length + (left + 1)) = some (some (i + mountPoint.length)) := by
  have hbyte : s[i + mountPoint.length]? = some c := by
    rw [← List.head?_drop, ← List.drop_drop, h, List.drop_left, List.head?_cons]
  rw [strnchr_skip nonzero free h, strnchr, hbyte]
  exact if_pos rfl

theorem strnchr_missing (nonzero : 0 ∉ path) (free : c ∉ path) (hc : c ≠ 0)
    (h : s.drop i = path ++ 0 :: rest) : strnchr s c i (path.length + (left + 1)) = some none := by
  have hbyte : s[i + path.length]? = some 0 := by
    rw [← List.head?_drop, ← List.drop_drop, h, List.drop_left, List.head?_cons]
  rw [strnchr_skip nonzero free h, strnchr, hbyte]
  dsimp only
  rw [if_neg hc.symm, if_pos rfl]

end Scans

/-! ## What is accepted -/

section Accepted

variable {input mountPoint path rest : List Byte}

/-- A buffer without a terminator is refused, and one with it holds a string before it. -/
theorem parseFilePath_of_not_mem (h : 0 ∉ input) :
    parseFilePath input input.length = some (input, none) := by
  rw [parseFilePath]
  by_cases hlen : input.length = 0
  · rw [if_pos hlen]
  · rw [if_neg hlen, hasNul_eq (by omega), slice, List.drop_zero, List.take_length,
      decide_eq_false h]

theorem hasNul_of_mem (h : 0 ∈ input) : hasNul input 0 input.length = some true := by
  rw [hasNul_eq (by omega), slice, List.drop_zero, List.take_length, decide_eq_true h]

theorem parseFilePath_no_colon (nonzero : 0 ∉ path) (free : colon ∉ path)
    (h : input = path ++ 0 :: rest) : parseFilePath input input.length = some (input, none) := by
  have hzero : 0 ∈ input := by
    rw [h]
    exact List.mem_append_right _ List.mem_cons_self
  have hlen : input.length = path.length + (rest.length + 1) := by
    rw [h, List.length_append, List.length_cons]
  have hscan : strnchr input colon 0 input.length = some none := by
    rw [hlen]
    exact strnchr_missing nonzero free (by decide) h
  rw [parseFilePath, if_neg (by omega), hasNul_of_mem hzero, hscan]

/-- The look behind the colon stays in the buffer: the terminator is no earlier than that. -/
theorem parseFilePath_colon (nonzero : 0 ∉ mountPoint ++ colon :: path)
    (free : colon ∉ mountPoint) (h : input = mountPoint ++ colon :: path ++ 0 :: rest) :
    parseFilePath input input.length =
      if mountPoint = [] ∨ path = [] then some (input, none)
      else some (input.set mountPoint.length 0, some (0, mountPoint.length + 1)) := by
  have hzero : 0 ∈ input := by
    rw [h]
    exact List.mem_append_right _ List.mem_cons_self
  have hsplit : input = mountPoint ++ colon :: (path ++ 0 :: rest) := by
    rw [h, List.append_assoc, List.cons_append]
  have hlen : input.length = mountPoint.length + ((path ++ 0 :: rest).length + 1) := by
    rw [hsplit, List.length_append, List.length_cons]
  have hscan : strnchr input colon 0 input.length = some (some (0 + mountPoint.length)) := by
    rw [hlen]
    exact strnchr_found (fun hmem => nonzero (List.mem_append_left _ hmem)) free hsplit
  have hnext : input[mountPoint.length + 1]? = (path ++ 0 :: rest).head? := by
    rw [← List.head?_drop, h, ConfigLoading.drop_behind_colon]
  rw [parseFilePath, if_neg (by omega), hasNul_of_mem hzero, hscan]
  dsimp only
  rw [Nat.zero_add]
  by_cases hmount : mountPoint = []
  · rw [if_pos (List.length_eq_zero_iff.mpr hmount), if_pos (Or.inl hmount)]
  rw [if_neg (fun hnil => hmount (List.length_eq_zero_iff.mp hnil)), hnext]
  cases path with
  | nil =>
    rw [List.nil_append, List.head?_cons, if_pos (Or.inr rfl)]
    exact if_pos rfl
  | cons c path =>
    have hc : c ≠ 0 := by
      rintro rfl
      exact nonzero (by simp)
    have hparts : ¬(mountPoint = [] ∨ c :: path = []) := by
      rw [not_or]
      exact ⟨hmount, List.cons_ne_nil c path⟩
    rw [List.cons_append, List.head?_cons, if_neg hparts]
    dsimp only
    rw [if_neg hc, if_pos (by omega)]

theorem Splits.parse (h : Splits input mountPoint path) :
    parseFilePath input input.length =
      some (input.set mountPoint.length 0, some (0, mountPoint.length + 1)) := by
  obtain ⟨rest, hrest⟩ := exists_cstr_append h.terminated
  have hnonzero : 0 ∉ mountPoint ++ colon :: path := h.string ▸ zero_not_mem_cstr
  rw [h.string] at hrest
  rw [parseFilePath_colon hnonzero h.colon_free hrest, if_neg]
  rw [not_or]
  exact ⟨h.mount_ne_nil, h.path_ne_nil⟩

theorem parseFilePath_refuses (h : ¬∃ mountPoint path, Splits input mountPoint path) :
    parseFilePath input input.length = some (input, none) := by
  by_cases hzero : 0 ∈ input
  · obtain ⟨rest, hrest⟩ := exists_cstr_append hzero
    have hnonzero : 0 ∉ cstr input := zero_not_mem_cstr
    by_cases hcolon : colon ∈ cstr input
    · obtain ⟨mountPoint, path, hstring, hfree⟩ := List.eq_append_cons_of_mem hcolon
      rw [hstring] at hrest hnonzero
      rw [parseFilePath_colon hnonzero hfree hrest, if_pos]
      by_contra hparts
      rw [not_or] at hparts
      exact h ⟨mountPoint, path, hzero, hstring, hparts.1, hfree, hparts.2⟩
    · exact parseFilePath_no_colon hnonzero hcolon hrest
  · exact parseFilePath_of_not_mem hzero

theorem getElem?_colon (h : Splits input mountPoint path) :
    input[mountPoint.length]? = some colon := by
  obtain ⟨rest, hrest⟩ := exists_cstr_append h.terminated
  rw [hrest, h.string, List.append_assoc, List.cons_append,
    List.getElem?_append_right (Nat.le_refl _), Nat.sub_self, List.getElem?_cons_zero]

/-- What stands in the buffer once the colon is replaced: two strings, one behind the other. -/
theorem strings_set (h : Splits input mountPoint path) :
    cstr ((input.set mountPoint.length 0).drop 0) = mountPoint ∧
      cstr ((input.set mountPoint.length 0).drop (mountPoint.length + 1)) = path := by
  obtain ⟨rest, hrest⟩ := exists_cstr_append h.terminated
  have hnonzero : 0 ∉ mountPoint ++ colon :: path := h.string ▸ zero_not_mem_cstr
  rw [List.mem_append, List.mem_cons, not_or, not_or] at hnonzero
  have hset : input.set mountPoint.length 0 = mountPoint ++ 0 :: (path ++ 0 :: rest) := by
    rw [hrest, h.string, List.append_assoc, List.cons_append,
      List.set_append_right _ _ (Nat.le_refl _), Nat.sub_self, List.set_cons_zero]
  constructor
  · rw [List.drop_zero, hset]
    exact cstr_append_zero hnonzero.1
  · rw [List.drop_set_of_lt (Nat.lt_succ_self _), hrest, h.string, ConfigLoading.drop_behind_colon]
    exact cstr_append_zero hnonzero.2.2

end Accepted

/-- Exactly the buffers with a string of the form `mountPoint:path` are accepted, with these two
strings: nothing but the colon is modified, and no access is outside the buffer. -/
theorem parse_splits_at_colon (input : List Byte) :
    ∃ buffer result, parseFilePath input input.length = some (buffer, result) ∧
      (result.isSome ↔ ∃ mountPoint path, Splits input mountPoint path) ∧
      (result = none → buffer = input) ∧
      ∀ mountPoint path, result = some (mountPoint, path) →
        Splits input (cstr (buffer.drop mountPoint)) (cstr (buffer.drop path)) ∧
          ∃ place, input[place]? = some colon ∧ buffer = input.set place 0 := by
  by_cases hsplits : ∃ mountPoint path, Splits input mountPoint path
  · obtain ⟨mountPoint, path, h⟩ := hsplits
    refine ⟨_, _, h.parse, iff_of_true rfl ⟨mountPoint, path, h⟩, ?_, ?_⟩
    · intro hnone
      cases hnone
    · rintro _ _ ⟨⟩
      rw [(strings_set h).1, (strings_set h).2]
      exact ⟨h, mountPoint.length, getElem?_colon h, rfl⟩
  · refine ⟨input, none, parseFilePath_refuses hsplits, iff_of_false Bool.false_ne_true hsplits,
      fun _ => rfl, ?_⟩
    intro _ _ hsome
    cases hsome

/-! ## The input in a page -/

section Pages

variable {page : Page} {input inputLen : Nat}

theorem pathName_isSome {buffer : List Byte} (h : 0 ∈ buffer) :
    (ConfigLoading.pathName (cstr buffer)).isSome ↔
      ∃ mountPoint path, Splits buffer mountPoint path := by
  constructor
  · intro hsome
    by_cases hcolon : colon ∈ cstr buffer
    · obtain ⟨mountPoint, path, hstring, hfree⟩ := List.eq_append_cons_of_mem hcolon
      rw [hstring, ConfigLoading.pathName_append hfree] at hsome
      refine ⟨mountPoint, path, h, hstring, ?_, hfree, ?_⟩
      · rintro rfl
        rw [if_pos (Or.inl rfl)] at hsome
        cases hsome
      · rintro rfl
        rw [if_pos (Or.inr rfl)] at hsome
        cases hsome
    · rw [ConfigLoading.pathName_of_not_mem hcolon] at hsome
      cases hsome
  · rintro ⟨mountPoint, path, hsplits⟩
    rw [hsplits.string, ConfigLoading.pathName_append hsplits.colon_free, if_neg]
    · rfl
    · rw [not_or]
      exact ⟨hsplits.mount_ne_nil, hsplits.path_ne_nil⟩

/-- The part of the page that holds the input, once a byte of it is replaced. -/
theorem slice_write {k : Nat} (fits : input + k + 1 ≤ 4096) :
    slice input inputLen (page.write (input + k) [0] fits).bytes =
      (slice input inputLen page.bytes).set k 0 := by
  have hset : (page.write (input + k) [0] fits).bytes = page.bytes.set (input + k) 0 := by
    rw [Page.bytes_write, patch, List.append_assoc, List.singleton_append,
      List.set_eq_take_append_cons_drop, if_pos (by rw [page.full]; omega)]
    rfl
  rw [hset, slice, slice, List.drop_set, if_neg (by omega), Nat.add_sub_cancel_left, List.take_set]

/-- Where the input lies in the page, the function over the page makes the same of it. -/
theorem parseFilePath_page (fits : input + inputLen ≤ 4096) :
    ConfigLoading.parseFilePath page input inputLen = .refused ∧
        parseFilePath (slice input inputLen page.bytes) inputLen =
          some (slice input inputLen page.bytes, none) ∨
      ∃ page' path, ConfigLoading.parseFilePath page input inputLen = .path page' (input + path) ∧
        parseFilePath (slice input inputLen page.bytes) inputLen =
          some (slice input inputLen page'.bytes, some (0, path)) := by
  have hlength : (slice input inputLen page.bytes).length = inputLen :=
    length_slice (by rw [page.full]; exact fits)
  have hparse := @parseFilePath_refuses (slice input inputLen page.bytes)
  have hsplit := @Splits.parse (slice input inputLen page.bytes)
  rw [hlength] at hparse hsplit
  by_cases hzero : 0 ∈ slice input inputLen page.bytes
  · obtain ⟨more, hmore⟩ := exists_cstr_append hzero
    have hdrop : page.bytes.drop input = cstr (slice input inputLen page.bytes) ++
        0 :: (more ++ page.bytes.drop (input + inputLen)) := by
      rw [← List.cons_append, ← List.append_assoc, ← hmore, slice, ← List.drop_drop,
        List.take_append_drop]
    have hlong := length_cstr_lt hzero
    rw [hlength] at hlong
    rcases ConfigLoading.parseFilePath_string hdrop zero_not_mem_cstr hlong with
      ⟨hnone, hrefused⟩ | ⟨name, hfits, hname, hpath, -⟩
    · refine Or.inl ⟨hrefused, hparse ?_⟩
      rw [← pathName_isSome hzero, hnone]
      exact Bool.false_ne_true
    · right
      obtain ⟨mountPoint, path, h⟩ := (pathName_isSome hzero).mp (by rw [hname]; rfl)
      have hplace : ConfigLoading.colonPlace (cstr (slice input inputLen page.bytes)) =
          mountPoint.length := by
        rw [ConfigLoading.colonPlace, h.string, (ConfigLoading.split_colon h.colon_free).1]
      rw [hplace] at hfits
      refine ⟨page.write (input + mountPoint.length) [0] hfits, mountPoint.length + 1, ?_, ?_⟩
      · rw [hpath]
        simp only [hplace, Nat.add_assoc]
      · rw [slice_write, hsplit h]
  · refine Or.inl ⟨?_, hparse ?_⟩
    · rw [ConfigLoading.parseFilePath]
      by_cases hlen : inputLen = 0
      · rw [if_pos hlen]
      · rw [if_neg hlen, if_pos (by rwa [slice] at hzero), if_pos fits]
    · rintro ⟨_, _, h⟩
      exact hzero h.terminated

end Pages

end PathParsing
