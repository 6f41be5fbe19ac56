import AnosKernel.Lib.CStrings
import AnosKernel.Lib.Runs
import AnosKernel.MessagePage

/-!
# The mount table of SYSTEM::VFS

`register_filesystem_driver`, `find_filesystem_driver_by_path` and `vfs_driver_thread` of
`system/main.c`. A message is one page; a path in it is read up to its zero, and a path that has
neither a colon nor a zero in the page is read past its end, which is a page fault.
-/

namespace VfsMounts

open CStrings MessagePage

def maxVfsFilesystems : Nat := 32

def colon : Byte := 0x3a

structure VFSMountEntry where
  mountPrefix : List Byte
  fsDriverChannel : BitVec 64

/-- The table after a registration, and whether it succeeded. -/
def registerFilesystemDriver (mounts : List VFSMountEntry) (mountPrefix : List Byte)
    (fsChannel : BitVec 64) : List VFSMountEntry × Bool :=
  if mounts.length ≥ maxVfsFilesystems then (mounts, false)
  else if mounts.any fun entry => strncmp 32 entry.mountPrefix mountPrefix then (mounts, false)
  else (mounts ++ [⟨strncpy 31 mountPrefix ++ [0], fsChannel⟩], true)

def findFilesystemDriverByPath (mounts : List VFSMountEntry) (path : List Byte) : BitVec 64 :=
  match strchr colon path with
  | none => 0
  | some colonPos =>
    let prefixLen := colonPos + 1
    if prefixLen ≥ 32 then 0
    else
      -- what follows the zero in the buffer is not set, and not read
      let mountPrefix := strncpy prefixLen path ++ [0]
      match mounts.find? fun entry => strncmp 32 entry.mountPrefix mountPrefix with
      | some entry => entry.fsDriverChannel
      | none => 0

def vfsFindFsDriver : BitVec 64 := 1

def vfsRegisterFilesystem : BitVec 64 := 2

structure Message where
  tag : BitVec 64
  size : Nat
  page : Page

/-- One round of `vfs_driver_thread`: the table and the reply, none where the thread faults. -/
def vfsDriver (mounts : List VFSMountEntry) (message : Message) :
    List VFSMountEntry × Option (BitVec 64) :=
  if message.tag = vfsFindFsDriver then
    if colon ∈ cstr message.page.bytes ∨ 0 ∈ message.page.bytes then
      (mounts, some (findFilesystemDriverByPath mounts message.page.bytes))
    else (mounts, none)
  else if message.tag = vfsRegisterFilesystem then
    if message.size ≥ 40 then
      let channel := BitVec.ofNat 64 (message.page.number 32 8)
      let (mounts, success) := registerFilesystemDriver mounts (message.page.bytes.take 32) channel
      (mounts, some (if success then 1 else 0))
    else (mounts, some 0)
  else (mounts, some 0)

/-- `"boot:"`, which `main` registers before it starts the thread. -/
def boot : List Byte := [0x62, 0x6f, 0x6f, 0x74, 0x3a]

/-- The table that the thread starts with, where RAMFS has started and where it has not. -/
def Started (mounts : List VFSMountEntry) : Prop :=
  mounts = [] ∨ ∃ ramfsChannel, mounts = (registerFilesystemDriver [] boot ramfsChannel).1

def vfs (init : List VFSMountEntry → Prop) : Runs.System (List VFSMountEntry) Message where
  init := init
  step mounts message mounts' := mounts' = (vfsDriver mounts message).1

/-! ## What the table is for -/

/-- The prefix of an entry. -/
def VFSMountEntry.stored (entry : VFSMountEntry) : List Byte := cstr entry.mountPrefix

/-- The prefix that a registration would store. -/
def wouldStore (mountPrefix : List Byte) : List Byte := chars 31 mountPrefix

/-- A path up to and including its first colon. -/
def pathPrefix (path : List Byte) : Option (List Byte) :=
  if colon ∈ path then some (path.takeWhile (· ≠ colon) ++ [colon]) else none

structure Sound (mounts : List VFSMountEntry) : Prop where
  room : mounts.length ≤ 32
  size : ∀ entry ∈ mounts, entry.mountPrefix.length = 32
  terminated : ∀ entry ∈ mounts, 0 ∈ entry.mountPrefix
  distinct : (mounts.map VFSMountEntry.stored).Nodup

/-- A registration succeeds just when there is room and its prefix is not stored yet. -/
def RegistersRight (mounts : List VFSMountEntry) (message : Message) : Prop :=
  message.tag = vfsRegisterFilesystem → 40 ≤ message.size →
    ((vfsDriver mounts message).2 = some 1 ↔
      mounts.length < 32 ∧ wouldStore (message.page.bytes.take 32) ∉ mounts.map VFSMountEntry.stored)

/-- A prefix that fills its field is not registered a second time, where there is room. -/
def Regular (mounts : List VFSMountEntry) (message : Message) : Prop :=
  message.tag = vfsRegisterFilesystem → 40 ≤ message.size → mounts.length < 32 →
    (chars 32 (message.page.bytes.take 32)).length < 32 ∨
      wouldStore (message.page.bytes.take 32) ∉ mounts.map VFSMountEntry.stored

/-- The answer to a path: the channel of its prefix, or 0. -/
def Answers (mounts : List VFSMountEntry) (path : List Byte) (answer : BitVec 64) : Prop :=
  (∃ entry ∈ mounts, pathPrefix path = some entry.stored ∧ answer = entry.fsDriverChannel) ∨
    (∀ entry ∈ mounts, pathPrefix path ≠ some entry.stored) ∧ answer = 0

section Entries

variable {mounts : List VFSMountEntry} {entry : VFSMountEntry} {mountPrefix path : List Byte}
  {channel : BitVec 64} {message : Message}

theorem Sound.compare (sound : Sound mounts) (h : entry ∈ mounts) :
    strncmp 32 entry.mountPrefix mountPrefix = true ↔ entry.stored = chars 32 mountPrefix := by
  rw [strncmp_iff, chars_eq_cstr (Nat.le_of_eq (sound.size entry h)), VFSMountEntry.stored]

theorem Sound.length_stored (sound : Sound mounts) (h : entry ∈ mounts) :
    entry.stored.length < 32 := by
  have hlt := length_cstr_lt (sound.terminated entry h)
  rwa [sound.size entry h] at hlt

/-- The entry of a registration. -/
theorem stored_new : VFSMountEntry.stored ⟨strncpy 31 mountPrefix ++ [0], channel⟩ =
    wouldStore mountPrefix := cstr_strncpy_zero

theorem Sound.append (sound : Sound mounts) (room : mounts.length < 32)
    (fresh : wouldStore mountPrefix ∉ mounts.map VFSMountEntry.stored) :
    Sound (mounts ++ [⟨strncpy 31 mountPrefix ++ [0], channel⟩]) := by
  constructor
  · rw [List.length_append, List.length_singleton]
    omega
  · intro entry h
    rcases List.mem_append.mp h with h | h
    · exact sound.size entry h
    · obtain rfl := List.mem_singleton.mp h
      rw [List.length_append, length_strncpy]
      rfl
  · intro entry h
    rcases List.mem_append.mp h with h | h
    · exact sound.terminated entry h
    · obtain rfl := List.mem_singleton.mp h
      exact List.mem_append_right _ (List.mem_singleton_self 0)
  · rw [List.map_append, List.map_singleton, stored_new, (List.perm_append_singleton _ _).nodup_iff,
      List.nodup_cons]
    exact ⟨fresh, sound.distinct⟩

/-- What the code compares with: all 32 bytes of the field. -/
theorem registerFilesystemDriver_eq (sound : Sound mounts) :
    registerFilesystemDriver mounts mountPrefix channel =
      if mounts.length < 32 ∧ chars 32 mountPrefix ∉ mounts.map VFSMountEntry.stored then
        (mounts ++ [⟨strncpy 31 mountPrefix ++ [0], channel⟩], true)
      else (mounts, false) := by
  have hany : (mounts.any fun entry => strncmp 32 entry.mountPrefix mountPrefix) = true ↔
      chars 32 mountPrefix ∈ mounts.map VFSMountEntry.stored := by
    rw [List.any_eq_true, List.mem_map]
    constructor
    · rintro ⟨entry, h, hsame⟩
      exact ⟨entry, h, (sound.compare h).mp hsame⟩
    · rintro ⟨entry, h, hsame⟩
      exact ⟨entry, h, (sound.compare h).mpr hsame⟩
  rw [registerFilesystemDriver]
  by_cases hfull : mounts.length ≥ maxVfsFilesystems
  · rw [if_pos hfull, if_neg (fun h => absurd hfull (Nat.not_le.mpr h.1))]
  · rw [if_neg hfull]
    by_cases hstored : chars 32 mountPrefix ∈ mounts.map VFSMountEntry.stored
    · rw [if_pos (hany.mpr hstored), if_neg (fun h => h.2 hstored)]
    · rw [if_neg (fun h => hstored (hany.mp h)), if_pos ⟨Nat.not_le.mp hfull, hstored⟩]

/-- A terminated prefix is stored whole. -/
theorem chars_of_terminated (h : (chars 32 mountPrefix).length < 32) :
    chars 32 mountPrefix = wouldStore mountPrefix :=
  chars_eq_of_length (by decide) (by omega)

/-- One that fills its field is never found again. -/
theorem Sound.not_stored_of_full (sound : Sound mounts) (h : ¬ (chars 32 mountPrefix).length < 32) :
    chars 32 mountPrefix ∉ mounts.map VFSMountEntry.stored := by
  intro hmem
  obtain ⟨entry, hentry, hsame⟩ := List.mem_map.mp hmem
  have hlt := sound.length_stored hentry
  rw [hsame] at hlt
  exact h hlt

theorem registered_iff (sound : Sound mounts) :
    (registerFilesystemDriver mounts mountPrefix channel).2 = true ↔
      mounts.length < 32 ∧ chars 32 mountPrefix ∉ mounts.map VFSMountEntry.stored := by
  rw [registerFilesystemDriver_eq sound]
  split <;> simp_all

/-- The comparison is the right one just for a terminated prefix, and for one that is new. -/
theorem Sound.compares_right_iff (sound : Sound mounts) :
    ((mounts.length < 32 ∧ chars 32 mountPrefix ∉ mounts.map VFSMountEntry.stored) ↔
      mounts.length < 32 ∧ wouldStore mountPrefix ∉ mounts.map VFSMountEntry.stored) ↔
    (mounts.length < 32 → (chars 32 mountPrefix).length < 32 ∨
      wouldStore mountPrefix ∉ mounts.map VFSMountEntry.stored) := by
  by_cases hterminated : (chars 32 mountPrefix).length < 32
  · rw [chars_of_terminated hterminated]
    simp only [true_iff, iff_self]
    exact fun _ => Or.inl (by rwa [← chars_of_terminated hterminated])
  · have hfull := sound.not_stored_of_full hterminated
    constructor
    · intro hsame hroom
      exact Or.inr (hsame.mp ⟨hroom, hfull⟩).2
    · intro hright
      exact ⟨fun h => ⟨h.1, (hright h.1).resolve_left hterminated⟩, fun h => ⟨h.1, hfull⟩⟩

theorem Sound.registered (sound : Sound mounts)
    (right : (mounts.length < 32 ∧ chars 32 mountPrefix ∉ mounts.map VFSMountEntry.stored) →
      wouldStore mountPrefix ∉ mounts.map VFSMountEntry.stored) :
    Sound (registerFilesystemDriver mounts mountPrefix channel).1 := by
  rw [registerFilesystemDriver_eq sound]
  split
  · rename_i hnew
    exact sound.append hnew.1 (right hnew)
  · exact sound

/-- A round is a registration, or leaves the table alone. -/
theorem vfsDriver_cases (mounts : List VFSMountEntry) (message : Message) :
    (message.tag = vfsRegisterFilesystem ∧ 40 ≤ message.size ∧
      ∃ channel, vfsDriver mounts message =
        ((registerFilesystemDriver mounts (message.page.bytes.take 32) channel).1,
          some (if (registerFilesystemDriver mounts (message.page.bytes.take 32) channel).2 then 1
            else 0))) ∨
    (¬ (message.tag = vfsRegisterFilesystem ∧ 40 ≤ message.size) ∧
      (vfsDriver mounts message).1 = mounts) := by
  rw [vfsDriver]
  by_cases hfind : message.tag = vfsFindFsDriver
  · right
    refine ⟨fun h => absurd (hfind.symm.trans h.1) (by decide), ?_⟩
    rw [if_pos hfind]
    split <;> rfl
  rw [if_neg hfind]
  by_cases hregister : message.tag = vfsRegisterFilesystem
  · rw [if_pos hregister]
    by_cases hsize : message.size ≥ 40
    · left
      rw [if_pos hsize]
      exact ⟨hregister, hsize, _, rfl⟩
    · right
      rw [if_neg hsize]
      exact ⟨fun h => hsize h.2, rfl⟩
  · right
    rw [if_neg hregister]
    exact ⟨fun h => hregister h.1, rfl⟩

/-- From a sound table, the regular messages are those that the thread handles rightly. -/
theorem Sound.regular_iff (sound : Sound mounts) (message : Message) :
    RegistersRight mounts message ∧ Sound (vfsDriver mounts message).1 ↔
      Regular mounts message := by
  rcases vfsDriver_cases mounts message with ⟨htag, hsize, channel, heq⟩ | ⟨hother, hsame⟩
  · have hreply : (vfsDriver mounts message).2 = some 1 ↔ mounts.length < 32 ∧
        chars 32 (message.page.bytes.take 32) ∉ mounts.map VFSMountEntry.stored := by
      rw [heq, ← @registered_iff mounts (message.page.bytes.take 32) channel sound]
      split <;> simp_all
    rw [RegistersRight, Regular, hreply, sound.compares_right_iff, heq]
    constructor
    · exact fun h => h.1
    · intro hregular
      refine ⟨hregular, sound.registered fun h => ?_⟩
      exact (sound.compares_right_iff.mpr (hregular htag hsize) |>.mp h).2
  · have hright : RegistersRight mounts message := fun htag hsize => absurd ⟨htag, hsize⟩ hother
    have hregular : Regular mounts message := fun htag hsize => absurd ⟨htag, hsize⟩ hother
    rw [hsame]
    exact ⟨fun _ => hregular, fun _ => ⟨hright, sound⟩⟩

/-- The entry that the search for a path compares equal. -/
theorem Sound.matches_iff (sound : Sound mounts) {k : Nat} (found : strchr colon path = some k)
    (short : k + 1 < 32) (h : entry ∈ mounts) :
    strncmp 32 entry.mountPrefix (strncpy (k + 1) path ++ [0]) = true ↔
      pathPrefix (cstr path) = some entry.stored := by
  obtain ⟨hmem, hchars⟩ := chars_strchr found
  have hlength : (strncpy (k + 1) path ++ [0]).length ≤ 32 := by
    rw [List.length_append, length_strncpy, List.length_singleton]
    omega
  rw [sound.compare h, chars_eq_cstr hlength, cstr_strncpy_zero, pathPrefix, if_pos hmem, ← hchars,
    Option.some.injEq, eq_comm]

theorem Sound.answers (sound : Sound mounts) (path : List Byte) :
    Answers mounts (cstr path) (findFilesystemDriverByPath mounts path) := by
  rw [findFilesystemDriverByPath]
  split
  · rename_i hnone
    right
    rw [strchr_none] at hnone
    refine ⟨fun entry _ => ?_, rfl⟩
    rw [pathPrefix, if_neg hnone]
    exact nofun
  · rename_i k hfound
    obtain ⟨hmem, hchars⟩ := chars_strchr hfound
    dsimp only
    split
    · rename_i hlong
      right
      refine ⟨fun entry hentry hsame => ?_, rfl⟩
      rw [pathPrefix, if_pos hmem, ← hchars, Option.some.injEq] at hsame
      have hlt := sound.length_stored hentry
      rw [← hsame, length_chars_strchr hfound] at hlt
      exact hlong.not_gt hlt
    · rename_i hshort
      have hmatches := fun entry (h : entry ∈ mounts) =>
        sound.matches_iff hfound (Nat.not_le.mp hshort) h
      split
      · rename_i entry hentry
        left
        have hin := List.mem_of_find?_eq_some hentry
        have hsame := List.find?_some hentry
        exact ⟨entry, hin, (hmatches entry hin).mp hsame, rfl⟩
      · rename_i hnone
        right
        refine ⟨fun entry hentry hsame => ?_, rfl⟩
        exact List.find?_eq_none.mp hnone entry hentry ((hmatches entry hentry).mpr hsame)

/-- Entries are only added, after those that are there. -/
theorem vfsDriver_extends (mounts : List VFSMountEntry) (message : Message) :
    mounts <+: (vfsDriver mounts message).1 := by
  rcases vfsDriver_cases mounts message with ⟨_, _, channel, heq⟩ | ⟨_, hsame⟩
  · rw [heq, registerFilesystemDriver]
    split
    · exact List.prefix_rfl
    split
    · exact List.prefix_rfl
    · exact List.prefix_append _ _
  · exact ⟨[], by rw [List.append_nil, hsame]⟩

theorem extends_of_reachable {mounts' : List VFSMountEntry}
    (run : Runs.Reachable (vfs (· = mounts)) mounts') : mounts <+: mounts' := by
  apply run.invariant
  · rintro _ rfl
    exact List.prefix_rfl
  · rintro s message _ hs rfl
    exact hs.trans (vfsDriver_extends s message)

/-- An entry that is found is found in every longer table. -/
theorem Sound.find_of_extends (sound : Sound mounts) (h : entry ∈ mounts)
    (matched : pathPrefix (cstr path) = some entry.stored) {mounts' : List VFSMountEntry}
    (extended : mounts <+: mounts') :
    findFilesystemDriverByPath mounts' path = findFilesystemDriverByPath mounts path := by
  obtain ⟨added, rfl⟩ := extended
  rw [findFilesystemDriverByPath, findFilesystemDriverByPath]
  cases hfound : strchr colon path with
  | none => rfl
  | some k =>
    dsimp only
    split
    · rfl
    · rename_i hshort
      have hsame := (sound.matches_iff hfound (Nat.not_le.mp hshort) h).mpr matched
      have hsome : (mounts.find? fun entry =>
          strncmp 32 entry.mountPrefix (strncpy (k + 1) path ++ [0])).isSome = true := by
        rw [List.find?_isSome]
        exact ⟨entry, h, hsame⟩
      obtain ⟨first, hfirst⟩ := Option.isSome_iff_exists.mp hsome
      rw [List.find?_append, hfirst, Option.some_or]

theorem sound_nil : Sound [] := ⟨by decide, nofun, nofun, List.nodup_nil⟩

theorem sound_of_reachable (run : Runs.Reachable ((vfs Started).restrict Regular) mounts) :
    Sound mounts := by
  apply run.invariant
  · rintro s (rfl | ⟨ramfsChannel, rfl⟩)
    · exact sound_nil
    · exact sound_nil.registered fun _ => List.not_mem_nil
  · rintro s message _ sound ⟨hregular, rfl⟩
    exact ((sound.regular_iff message).mpr hregular).2

/-- A registration whose prefix fills its field. -/
def unterminated : Message where
  tag := vfsRegisterFilesystem
  size := 40
  page := ⟨List.replicate 4096 0x61, List.length_replicate⟩

end Entries

end VfsMounts
