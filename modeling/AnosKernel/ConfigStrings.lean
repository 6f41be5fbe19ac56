import AnosKernel.BootConfig

/-!
# Strings in the boot configuration

Which strings `cap_str_to_id` and `class_str_to_id` of `system/config.c` accept: the comparison is
as long as the entry of the table, so a string that goes on behind an entry is accepted too.
-/

namespace ConfigStrings

open Bytes Checked CStrings MessagePage SpawnRequest InitialStack BootConfig

/-- The names of the classes, with the classes that they stand for. -/
def classNames : List (List Byte × TaskClass) :=
  [(text "NORMAL", .normal), (text "HIGH", .high), (text "IDLE", .idle),
    (text "REALTIME", .realtime)]

theorem length_syscallIdentifiers : syscallIdentifiers.length = 26 := by
  rw [syscallIdentifiers, List.length_map]
  rfl

theorem text_ofList (cs : List Char) :
    text (String.ofList cs) = cs.map fun c => BitVec.ofNat 8 c.toNat := by
  rw [text, String.toList_ofList]

-- the tables are compared by their characters, since reading these off a literal is slow
theorem syscallIdentifiers_prefixFree : PrefixFree syscallIdentifiers := by
  apply PrefixFree.of_drop 8
  rw [PrefixFree, syscallIdentifiers]
  simp only [List.map_cons, List.map_nil]
  repeat rw [text_ofList]
  decide +kernel

theorem classNames_prefixFree : PrefixFree (classNames.map Prod.fst) := by
  rw [PrefixFree]
  decide +kernel

theorem cstr_identifier : ∀ word ∈ syscallIdentifiers, cstr word = word := by
  have hzero : ∀ word ∈ syscallIdentifiers, 0 ∉ word := by
    rw [syscallIdentifiers]
    simp only [List.map_cons, List.map_nil]
    repeat rw [text_ofList]
    decide +kernel
  exact fun word hmem => cstr_of_not_mem (hzero word hmem)

/-- The string is exactly an identifier, and the capability is the one of this system call. -/
def Grants (cookies : Nat → BitVec 64) (str : List Byte) (cap : InitCapability) : Prop :=
  ∃ i, syscallIdentifiers[i]? = some (cstr str) ∧
    cap = ⟨BitVec.ofNat 64 (i + 1), cookies (i + 1)⟩

/-- Every string of an array that is accepted grants its capability. -/
def CapsExact (cookies : Nat → BitVec 64) (memory : Bool) (strings : List (List Byte)) : Prop :=
  ∀ built, buildProcessCaps cookies memory (some (.array (strings.map .string))) = some built →
    List.Forall₂ (Grants cookies) strings built

/-- A name that is accepted is exactly that of the class. -/
def ClassExact (className : List Byte) : Prop :=
  ∀ taskClass, classStrToId className = some taskClass → (cstr className, taskClass) ∈ classNames

/-- The class and the capabilities of an entry are exactly those of the tables. -/
structure Exact (server : Json) : Prop where
  className : ∀ name, server.get classKey = some (.string name) →
    cstr name ∈ classNames.map Prod.fst
  capabilities : ∀ str, .string str ∈ items (server.get capsKey) → cstr str ∈ syscallIdentifiers

/-- An entry with another string, once the loop comes to it, makes the configuration invalid and is
not called for. -/
def ConfigExact (cookies : Nat → BitVec 64) (around : Nat → Surroundings) (root : Option Json)
    (before : List Json) (server : Json) : Prop :=
  ¬ Exact server → processConfig cookies around root =
    ⟨some .invalid, (processBootServers cookies around before).calls⟩

/-- Nothing but the ends of its strings is wrong with an entry. -/
structure Readable (around : Surroundings) (server : Json) : Prop where
  name : ∃ name, server.get nameKey = some (.string name)
  path : ∃ path, server.get pathKey = some (.string path)
  className : ∃ name, server.get classKey = some (.string name) ∧
    Begins (classNames.map Prod.fst) name
  stackSize : ∃ size, server.get stackSizeKey = some (.integer size)
  capsMemory : items (server.get capsKey) ≠ [] → around.capsMemory = true
  capabilities : ∀ cap ∈ items (server.get capsKey), ∃ str, cap = .string str ∧
    Begins syscallIdentifiers str
  argsMemory : around.argsMemory = true
  arguments : ∀ arg ∈ items (server.get argsKey), ∃ str, arg = .string str

/-- The name of the class or a capability goes on behind an entry of its table. -/
def Stretched (server : Json) : Prop :=
  (∃ name, server.get classKey = some (.string name) ∧ Extends (classNames.map Prod.fst) name) ∨
    ∃ str, .string str ∈ items (server.get capsKey) ∧ Extends syscallIdentifiers str

/-! ## The tables -/

section Tables

variable {cookies : Nat → BitVec 64} {str : List Byte} {cap : InitCapability} {i : Nat}

/-- The scan stops at the one identifier that the string begins with. -/
theorem find_identifier : (syscallIdentifiers.findIdx? fun identifier =>
      strncmp (strlen identifier) identifier str) = some i ↔
    ∃ word, syscallIdentifiers[i]? = some word ∧ word <+: cstr str := by
  apply syscallIdentifiers_prefixFree.findIdx?_eq_some_iff
  intro word hmem
  rw [strncmp_strlen_iff, cstr_identifier word hmem]

/-- The id is the place of the identifier, from 1 on. -/
theorem capStrToId_eq : capStrToId str =
    ((syscallIdentifiers.findIdx? fun identifier =>
      strncmp (strlen identifier) identifier str).map (· + 1)).getD 0 := by
  rw [capStrToId]
  cases syscallIdentifiers.findIdx? fun identifier => strncmp (strlen identifier) identifier str <;>
    rfl

theorem capability_eq_some : capability cookies (.string str) = some cap ↔
    ∃ i word, syscallIdentifiers[i]? = some word ∧ word <+: cstr str ∧
      cap = ⟨BitVec.ofNat 64 (i + 1), cookies (i + 1)⟩ := by
  rw [capability]
  dsimp only [string?]
  rw [capStrToId_eq]
  rcases hfind : syscallIdentifiers.findIdx? fun identifier =>
      strncmp (strlen identifier) identifier str with _ | i
  · rw [Option.map_none, Option.getD_none, if_pos (Or.inl rfl)]
    constructor
    · intro h
      cases h
    · rintro ⟨i, word, hword, hbegins, -⟩
      rw [find_identifier.mpr ⟨word, hword, hbegins⟩] at hfind
      cases hfind
  · obtain ⟨word, hword, hbegins⟩ := find_identifier.mp hfind
    obtain ⟨hi, -⟩ := List.getElem?_eq_some_iff.mp hword
    rw [length_syscallIdentifiers] at hi
    rw [Option.map_some, Option.getD_some,
      if_neg (not_or_intro (Nat.succ_ne_zero i) (by rw [syscallIdEnd]; omega)), Option.some.injEq]
    constructor
    · intro h
      exact ⟨i, word, hword, hbegins, h.symm⟩
    · rintro ⟨j, word', hword', hbegins', rfl⟩
      rw [syscallIdentifiers_prefixFree.unique hword hword' hbegins hbegins']

/-- A string is accepted just if it begins with an identifier. -/
theorem capability_isSome :
    (capability cookies (.string str)).isSome ↔ Begins syscallIdentifiers str := by
  rw [Option.isSome_iff_exists]
  constructor
  · rintro ⟨cap, h⟩
    obtain ⟨i, word, hword, hbegins, -⟩ := capability_eq_some.mp h
    exact ⟨word, List.mem_of_getElem? hword, hbegins⟩
  · rintro ⟨word, hmem, hbegins⟩
    obtain ⟨i, hi⟩ := List.mem_iff_getElem?.mp hmem
    exact ⟨_, capability_eq_some.mpr ⟨i, word, hi, hbegins, rfl⟩⟩

/-- What an accepted string grants is granted rightly just if the string does not go on. -/
theorem grants_iff (h : capability cookies (.string str) = some cap) :
    Grants cookies str cap ↔ ¬ Extends syscallIdentifiers str := by
  obtain ⟨i, word, hword, hbegins, rfl⟩ := capability_eq_some.mp h
  constructor
  · rintro ⟨j, hj, -⟩ hextends
    exact hextends.not_mem syscallIdentifiers_prefixFree (List.mem_of_getElem? hj)
  · intro hextends
    by_cases heq : word = cstr str
    · rw [heq] at hword
      exact ⟨i, hword, rfl⟩
    · exact absurd ⟨word, List.mem_of_getElem? hword, hbegins, heq⟩ hextends

/-- The classes are looked up by the beginning of the string. -/
theorem classStrToId_eq : classStrToId str =
    (classNames.find? fun entry => decide (entry.1 <+: cstr str)).map Prod.snd := by
  have hnames : ∀ word ∈ classNames.map Prod.fst, cstr word = word := by decide +kernel
  have hcompare : ∀ word ∈ classNames.map Prod.fst,
      strncmp word.length word str = decide (word <+: cstr str) := by
    intro word hmem
    have hlength : word.length = strlen word := by rw [strlen, hnames word hmem]
    rw [Bool.eq_iff_iff, decide_eq_true_iff, hlength, strncmp_strlen_iff, hnames word hmem]
  have hnormal : strncmp 6 (text "NORMAL") str = decide (text "NORMAL" <+: cstr str) :=
    hcompare (text "NORMAL") (by decide)
  have hhigh : strncmp 4 (text "HIGH") str = decide (text "HIGH" <+: cstr str) :=
    hcompare (text "HIGH") (by decide)
  have hidle : strncmp 4 (text "IDLE") str = decide (text "IDLE" <+: cstr str) :=
    hcompare (text "IDLE") (by decide)
  have hrealtime : strncmp 8 (text "REALTIME") str = decide (text "REALTIME" <+: cstr str) :=
    hcompare (text "REALTIME") (by decide)
  rw [classStrToId, hnormal, hhigh, hidle, hrealtime, classNames]
  simp only [List.find?_cons, List.find?_nil]
  cases decide (text "NORMAL" <+: cstr str) <;> cases decide (text "HIGH" <+: cstr str) <;>
    cases decide (text "IDLE" <+: cstr str) <;> cases decide (text "REALTIME" <+: cstr str) <;> rfl

theorem classStrToId_isSome :
    (classStrToId str).isSome ↔ Begins (classNames.map Prod.fst) str := by
  rw [classStrToId_eq, Option.isSome_map, List.find?_isSome]
  constructor
  · rintro ⟨entry, hmem, h⟩
    exact ⟨entry.1, List.mem_map_of_mem hmem, of_decide_eq_true h⟩
  · rintro ⟨word, hmem, h⟩
    obtain ⟨entry, hentry, rfl⟩ := List.mem_map.mp hmem
    exact ⟨entry, hentry, decide_eq_true h⟩

theorem class_mem_of_some {taskClass : TaskClass} (h : classStrToId str = some taskClass) :
    ∃ word, (word, taskClass) ∈ classNames ∧ word <+: cstr str := by
  rw [classStrToId_eq] at h
  obtain ⟨entry, hentry, rfl⟩ := Option.map_eq_some_iff.mp h
  have hfound := List.find?_some hentry
  exact ⟨entry.1, List.mem_of_find?_eq_some hentry, of_decide_eq_true hfound⟩

end Tables

/-! ## Arrays of capabilities and classes -/

section Arrays

variable {cookies : Nat → BitVec 64} {memory : Bool} {strings : List (List Byte)}
  {built : List InitCapability} {str : List Byte}

theorem capability_of_built (h : (strings.map Json.string).map (capability cookies) =
    built.map some) : List.Forall₂ (fun str cap => capability cookies (.string str) = some cap)
      strings built := by
  induction strings generalizing built with
  | nil =>
    rw [List.map_eq_nil_iff.mp h.symm]
    exact List.Forall₂.nil
  | cons str strings ih =>
    rcases built with _ | ⟨cap, built⟩
    · cases h
    rw [List.map_cons, List.map_cons, List.map_cons, List.cons.injEq] at h
    exact List.Forall₂.cons h.1 (ih h.2)

/-- Of an array that is accepted, the right capabilities are granted just if no string goes on. -/
theorem forall₂_grants_iff (h : List.Forall₂ (fun str cap =>
      capability cookies (.string str) = some cap) strings built) :
    List.Forall₂ (Grants cookies) strings built ↔
      ∀ str ∈ strings, ¬ Extends syscallIdentifiers str := by
  induction h with
  | nil => exact iff_of_true List.Forall₂.nil fun str hmem => absurd hmem List.not_mem_nil
  | cons hcap _ ih => rw [List.forall₂_cons, List.forall_mem_cons, grants_iff hcap, ih]

theorem begins_of_built (h : List.Forall₂ (fun str cap =>
      capability cookies (.string str) = some cap) strings built) :
    ∀ str ∈ strings, Begins syscallIdentifiers str := by
  induction h with
  | nil => exact fun str hmem => absurd hmem List.not_mem_nil
  | cons hcap _ ih =>
    rw [List.forall_mem_cons]
    exact ⟨capability_isSome.mp (Option.isSome_iff_exists.mpr ⟨_, hcap⟩), ih⟩

theorem exists_built (h : ∀ str ∈ strings, Begins syscallIdentifiers str) :
    ∃ built, (strings.map Json.string).mapM (capability cookies) = some built := by
  rw [← Option.isSome_iff_exists, mapM_isSome, List.forall_mem_map]
  exact fun str hmem => capability_isSome.mpr (h str hmem)

theorem caps_exact_iff : CapsExact cookies memory strings ↔
    (memory = true → (∀ str ∈ strings, Begins syscallIdentifiers str) →
      ∀ str ∈ strings, ¬ Extends syscallIdentifiers str) := by
  constructor
  · intro hexact hmemory hbegins
    rcases strings with _ | ⟨str, strings⟩
    · exact fun str hmem => absurd hmem List.not_mem_nil
    obtain ⟨built, hbuilt⟩ := @exists_built cookies _ hbegins
    have hcaps : buildProcessCaps cookies memory (some (.array ((str :: strings).map .string))) =
        some built := by
      rw [buildProcessCaps, hmemory]
      exact (if_pos ⟨Nat.succ_pos _, rfl⟩).trans hbuilt
    exact (forall₂_grants_iff (capability_of_built (mapM_eq_some.mp hbuilt))).mp
      (hexact built hcaps)
  · intro hcond built hcaps
    rw [buildProcessCaps] at hcaps
    split at hcaps
    · next hpos =>
      have hcaps := capability_of_built (mapM_eq_some.mp hcaps)
      exact (forall₂_grants_iff hcaps).mpr (hcond hpos.2 (begins_of_built hcaps))
    · cases hcaps

theorem class_exact_iff :
    ClassExact str ↔ ¬ Extends (classNames.map Prod.fst) str := by
  constructor
  · intro hexact hextends
    obtain ⟨taskClass, hclass⟩ :=
      Option.isSome_iff_exists.mp (classStrToId_isSome.mpr hextends.begins)
    exact hextends.not_mem classNames_prefixFree (List.mem_map_of_mem (hexact taskClass hclass))
  · intro hextends taskClass hclass
    obtain ⟨word, hmem, hword⟩ := class_mem_of_some hclass
    by_cases heq : word = cstr str
    · rwa [heq] at hmem
    · exact absurd ⟨word, List.mem_map_of_mem hmem, hword, heq⟩ hextends

end Arrays

/-! ## Entries of the configuration -/

section Entries

variable {cookies : Nat → BitVec 64} {around : Surroundings} {server : Json}

theorem string?_isSome {json : Json} :
    (string? (some json)).isSome ↔ ∃ str, json = .string str := by
  rw [Option.isSome_iff_exists]
  apply exists_congr
  intro str
  rw [string?_eq_some, Option.some.injEq]

theorem capability_isSome_json {cap : Json} : (capability cookies cap).isSome ↔
    ∃ str, cap = .string str ∧ Begins syscallIdentifiers str := by
  constructor
  · intro h
    cases cap with
    | string str => exact ⟨str, rfl, capability_isSome.mp h⟩
    | _ => cases h
  · rintro ⟨str, rfl, hbegins⟩
    exact capability_isSome.mpr hbegins

/-- The capabilities of an entry do not make it invalid. -/
theorem caps_accepted_iff {caps : Option Json} :
    ¬((items caps).length > 0 ∧ (buildProcessCaps cookies around.capsMemory caps).isNone) ↔
      (items caps ≠ [] → around.capsMemory = true) ∧
        ∀ cap ∈ items caps, ∃ str, cap = .string str ∧ Begins syscallIdentifiers str := by
  by_cases hempty : items caps = []
  · rw [hempty]
    exact iff_of_true (fun h => absurd h.1 (Nat.lt_irrefl 0))
      ⟨fun h => absurd rfl h, fun cap hmem => absurd hmem List.not_mem_nil⟩
  have hpos : (items caps).length > 0 := List.length_pos_iff.mpr hempty
  have hcaps : (∀ cap ∈ items caps, ∃ str, cap = .string str ∧ Begins syscallIdentifiers str) ↔
      ((items caps).mapM (capability cookies)).isSome := by
    rw [mapM_isSome]
    exact forall₂_congr fun cap _ => capability_isSome_json.symm
  rw [hcaps, not_and, Bool.not_eq_true, Option.isNone_eq_false_iff, buildProcessCaps]
  cases around.capsMemory with
  | false =>
    rw [if_neg (fun h => absurd h.2 Bool.false_ne_true)]
    exact iff_of_false (fun h => absurd (h hpos) Bool.false_ne_true)
      fun h => absurd (h.1 hempty) Bool.false_ne_true
  | true =>
    rw [if_pos ⟨hpos, rfl⟩]
    exact ⟨fun h => ⟨fun _ => rfl, h hpos⟩, fun h _ => h.2⟩

theorem args_accepted_iff {args : Option Json} {path : List Byte} :
    (buildProcessArgs around.argsMemory args path).isSome ↔
      around.argsMemory = true ∧ ∀ arg ∈ items args, ∃ str, arg = .string str := by
  have hargs : (∀ arg ∈ items args, ∃ str, arg = .string str) ↔
      ((items args).mapM fun arg => string? (some arg)).isSome := by
    rw [mapM_isSome]
    exact forall₂_congr fun arg _ => string?_isSome.symm
  rw [hargs, buildProcessArgs]
  cases around.argsMemory with
  | false => exact iff_of_false Bool.false_ne_true fun h => absurd h.1 Bool.false_ne_true
  | true =>
    rw [if_pos rfl, Option.isSome_map]
    exact (and_iff_right rfl).symm

theorem readServer_isSome :
    (readServer cookies around server).isSome ↔ Readable around server := by
  constructor
  · intro h
    obtain ⟨a, h⟩ := Option.isSome_iff_exists.mp h
    obtain ⟨name, hname, h⟩ := Option.bind_eq_some_iff.mp h
    obtain ⟨path, hpath, h⟩ := Option.bind_eq_some_iff.mp h
    obtain ⟨className, hclassName, h⟩ := Option.bind_eq_some_iff.mp h
    obtain ⟨stackSize, hstackSize, h⟩ := Option.bind_eq_some_iff.mp h
    obtain ⟨taskClass, htaskClass, h⟩ := Option.bind_eq_some_iff.mp h
    dsimp only at h
    split at h
    · cases h
    next hcaps =>
      obtain ⟨hcapsMemory, hcapabilities⟩ := caps_accepted_iff.mp hcaps
      obtain ⟨args, hargs, -⟩ := Option.bind_eq_some_iff.mp h
      obtain ⟨hargsMemory, harguments⟩ :=
        args_accepted_iff.mp (Option.isSome_iff_exists.mpr ⟨args, hargs⟩)
      exact {
        name := ⟨name, string?_eq_some.mp hname⟩
        path := ⟨path, string?_eq_some.mp hpath⟩
        className := ⟨className, string?_eq_some.mp hclassName,
          classStrToId_isSome.mp (Option.isSome_iff_exists.mpr ⟨taskClass, htaskClass⟩)⟩
        stackSize := ⟨stackSize, integer?_eq_some hstackSize⟩
        capsMemory := hcapsMemory
        capabilities := hcapabilities
        argsMemory := hargsMemory
        arguments := harguments }
  · intro h
    obtain ⟨name, hname⟩ := h.name
    obtain ⟨path, hpath⟩ := h.path
    obtain ⟨className, hclassName, hbegins⟩ := h.className
    obtain ⟨stackSize, hstackSize⟩ := h.stackSize
    obtain ⟨taskClass, htaskClass⟩ := Option.isSome_iff_exists.mp (classStrToId_isSome.mpr hbegins)
    have hcaps := (@caps_accepted_iff cookies _ _).mpr ⟨h.capsMemory, h.capabilities⟩
    obtain ⟨args, hargs⟩ := Option.isSome_iff_exists.mp
      ((@args_accepted_iff _ _ path).mpr ⟨h.argsMemory, h.arguments⟩)
    rw [readServer, hname, hpath, hclassName, hstackSize]
    dsimp only [string?, integer?, Option.bind_eq_bind, Option.bind_some]
    rw [htaskClass, Option.bind_some, if_neg hcaps, hargs]
    rfl

/-- Of an entry that can be read, the strings are exact just if none goes on. -/
theorem Readable.exact_iff (h : Readable around server) : Exact server ↔ ¬ Stretched server := by
  constructor
  · rintro hexact (⟨name, hname, hextends⟩ | ⟨str, hstr, hextends⟩)
    · exact hextends.not_mem classNames_prefixFree (hexact.className name hname)
    · exact hextends.not_mem syscallIdentifiers_prefixFree (hexact.capabilities str hstr)
  · intro hstretched
    rw [Stretched, not_or] at hstretched
    obtain ⟨name, hname, hbegins⟩ := h.className
    constructor
    · intro name' hname'
      rw [hname] at hname'
      cases hname'
      exact hbegins.mem_or_extends.resolve_right fun hextends =>
        hstretched.1 ⟨name, hname, hextends⟩
    · intro str hmem
      obtain ⟨str', heq, hbegins'⟩ := h.capabilities _ hmem
      cases heq
      exact hbegins'.mem_or_extends.resolve_right fun hextends =>
        hstretched.2 ⟨str, hmem, hextends⟩

end Entries

/-! ## The whole configuration -/

section Configuration

variable {cookies : Nat → BitVec 64} {around : Nat → Surroundings} {root : Option Json}
  {before after : List Json} {server : Json}

/-- The loop goes on behind servers that are all dealt with. -/
theorem processBootServers_append
    (reached : (processBootServers cookies around before).result = some .ok) (rest : List Json) :
    processBootServers cookies around (before ++ rest) =
      ⟨(processBootServers cookies (fun i => around (i + before.length)) rest).result,
        (processBootServers cookies around before).calls ++
          (processBootServers cookies (fun i => around (i + before.length)) rest).calls⟩ := by
  induction before generalizing around with
  | nil => rfl
  | cons server before ih =>
    rcases hread : readServer cookies (around 0) server with _ | a
    · rw [processBootServers_invalid hread] at reached
      cases reached
    rw [List.cons_append, processBootServers, processBootServers, hread]
    rw [processBootServers, hread] at reached
    dsimp only at reached ⊢
    rcases hcreate : createServerProcess a (around 0).calls with _ | ⟨pid, created⟩
    · rw [hcreate] at reached
      cases reached
    rw [hcreate] at reached
    dsimp only at reached ⊢
    by_cases hpid : pid.slt 0
    · rw [if_pos hpid] at reached
      cases reached
    · rw [if_neg hpid] at reached ⊢
      rw [if_neg hpid, ih reached]
      simp only [List.length_cons, Nat.add_assoc, List.cons_append]

/-- An entry that can be read is called for. -/
theorem calls_ne_nil {around : Nat → Surroundings}
    (h : (readServer cookies (around 0) server).isSome) :
    (processBootServers cookies around (server :: after)).calls ≠ [] := by
  obtain ⟨a, hread⟩ := Option.isSome_iff_exists.mp h
  rcases @processBootServers_cons cookies around after server a hread with
    ⟨-, hrun⟩ | ⟨-, created, hrun⟩ | ⟨-, created, -, hrun⟩
  all_goals
    rw [hrun]
    exact List.cons_ne_nil _ _

theorem config_exact_iff (servers : bootServers root = some (before ++ server :: after))
    (reached : (processBootServers cookies around before).result = some .ok) :
    ConfigExact cookies around root before server ↔
      (Readable (around before.length) server → ¬ Stretched server) := by
  have hrun := processBootServers_append reached (server :: after)
  rw [ConfigExact, processConfig_bootServers servers, hrun]
  constructor
  · intro hconfig hreadable
    rw [← hreadable.exact_iff]
    by_contra hexact
    have hcalls := congrArg Run.calls (hconfig hexact)
    have hnil := List.append_cancel_left (hcalls.trans (List.append_nil _).symm)
    refine absurd hnil (calls_ne_nil ?_)
    rw [Nat.zero_add]
    exact readServer_isSome.mpr hreadable
  · intro hcond hexact
    have hnone : readServer cookies (around (0 + before.length)) server = none := by
      rw [Nat.zero_add, ← Option.not_isSome_iff_eq_none, readServer_isSome]
      intro hreadable
      exact hexact (hreadable.exact_iff.mpr (hcond hreadable))
    rw [processBootServers, hnone]
    dsimp only
    rw [List.append_nil]

/-- The strings are matched exactly, in an array of capabilities, in the name of a class and in an
entry of the configuration, just if no string that is otherwise accepted goes on behind an entry of
its table. -/
theorem strings_exact_iff (memory : Bool) (strings : List (List Byte)) (className : List Byte)
    (servers : bootServers root = some (before ++ server :: after))
    (reached : (processBootServers cookies around before).result = some .ok) :
    (CapsExact cookies memory strings ↔
      (memory = true → (∀ str ∈ strings, Begins syscallIdentifiers str) →
        ∀ str ∈ strings, ¬ Extends syscallIdentifiers str)) ∧
    (ClassExact className ↔ ¬ Extends (classNames.map Prod.fst) className) ∧
    (ConfigExact cookies around root before server ↔
      (Readable (around before.length) server → ¬ Stretched server)) :=
  ⟨caps_exact_iff, class_exact_iff, config_exact_iff servers reached⟩

end Configuration

/-- An entry that says `IDLE` and `SYSCALL_SLEEP` is exact. -/
theorem strings_exact_iff_oneServer :
    (CapsExact (fun _ => 7) true [text "SYSCALL_SLEEP"] ↔
      (true = true → (∀ str ∈ [text "SYSCALL_SLEEP"], Begins syscallIdentifiers str) →
        ∀ str ∈ [text "SYSCALL_SLEEP"], ¬ Extends syscallIdentifiers str)) ∧
    (ClassExact (text "IDLE") ↔ ¬ Extends (classNames.map Prod.fst) (text "IDLE")) ∧
    (ConfigExact (fun _ => 7) (fun _ => plenty) (some (configOf [serverWith 1])) []
      (serverWith 1) ↔ (Readable plenty (serverWith 1) → ¬ Stretched (serverWith 1))) :=
  @strings_exact_iff (fun _ => 7) (fun _ => plenty) _ [] [] _ true [text "SYSCALL_SLEEP"]
    (text "IDLE") rfl rfl

/-- `SYSCALL_SLEEPY` grants the capability of `SYSCALL_SLEEP`, and `IDLEX` is the class of `IDLE`. -/
theorem sleepy_is_granted :
    ¬ CapsExact (fun _ => 7) true [text "SYSCALL_SLEEPY"] ∧ ¬ ClassExact (text "IDLEX") := by
  have hsleepy : Extends syscallIdentifiers (text "SYSCALL_SLEEPY") := by
    refine ⟨text "SYSCALL_SLEEP", List.mem_map_of_mem (by simp), ?_⟩
    repeat rw [text_ofList]
    decide +kernel
  have hidlex : Extends (classNames.map Prod.fst) (text "IDLEX") := by
    refine ⟨text "IDLE", by simp [classNames], ?_⟩
    repeat rw [text_ofList]
    decide +kernel
  rw [caps_exact_iff, class_exact_iff, not_not]
  refine ⟨?_, hidlex⟩
  intro h
  refine h rfl ?_ _ (List.mem_singleton_self _) hsleepy
  intro str hmem
  rw [List.mem_singleton.mp hmem]
  exact hsleepy.begins

end ConfigStrings
