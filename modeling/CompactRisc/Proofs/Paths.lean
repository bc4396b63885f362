import CompactRisc.Proofs.Runs
import CompactRisc.Proofs.Tokens

/-!
# The paths that results go to by default

Results go to the directory of the source, under names that differ from the name of the source and from
each other. A run therefore does not overwrite its own source, unless the source has the extension of
the machine code. There is one kind of name for which the machine code has no place to go: it is `..`
and an extension.

Results:
* `Path.location_of_name?`, `Path.location_processed`, `Path.location_machineCode`: the source and its
  results as names in one directory.
* `Path.isBeside_machineCode_iff`: which sources have their machine code beside them.
* `Options.read_run`: a run leaves the source alone if none of its writes leads there.
* `Options.run_keeps_input`: the default paths lead to different places, and a run with them keeps its
  source.
* `Options.run_steps_out`: a source that assembles and whose run fails.
-/
namespace CompactRisc

namespace Path

/-! ## Segments -/

/-- The segment can be the name of a file. -/
def IsName (segment : String) : Prop := leadsToDirectory segment = false ∧ '/' ∉ segment.toList

theorem slash_not_mem_of_mem_segments {path segment : String} (h : segment ∈ segments path) :
    '/' ∉ segment.toList := by
  obtain ⟨piece, hpiece, rfl⟩ := List.mem_map.1 h
  rw [List.splitOn_eq_splitOnP] at hpiece
  rw [String.toList_ofList]
  exact fun hslash => by simpa using Text.not_of_mem_splitOnP _ _ piece hpiece _ hslash

theorem segments_ofSegments {pieces : List String} (hne : pieces ≠ [])
    (h : ∀ s ∈ pieces, '/' ∉ s.toList) : segments (ofSegments pieces) = pieces := by
  rw [segments, ofSegments, String.toList_intercalate, show "/".toList = ['/'] from rfl,
    List.splitOn_intercalate '/' _ (by simpa using hne)]
  · simp
  · intro piece hpiece
    obtain ⟨s, hs, rfl⟩ := List.mem_map.1 hpiece
    exact h s hs

theorem trimSegments_subset (pieces : List String) : trimSegments pieces ⊆ pieces := by
  cases pieces with
  | nil => exact List.Subset.refl _
  | cons first rest =>
    refine List.cons_subset_cons first fun s hs => ?_
    exact List.mem_reverse.1 ((List.dropWhile_sublist isTrivial).subset (List.mem_reverse.1 hs))

theorem foldl_follow_of_isTrivial {pieces : List String} (h : ∀ s ∈ pieces, isTrivial s = true)
    (location : Location) : pieces.foldl Location.follow location = location := by
  induction pieces with
  | nil => rfl
  | cons s pieces ih =>
    rw [List.foldl_cons, Location.follow_of_isTrivial (h s List.mem_cons_self)]
    exact ih fun s hs => h s (List.mem_cons_of_mem _ hs)

/-- The segments that are cut off at the end lead nowhere. -/
theorem foldl_follow_trimSegments (pieces : List String) (location : Location) :
    (trimSegments pieces).foldl Location.follow location =
      pieces.foldl Location.follow location := by
  cases pieces with
  | nil => rfl
  | cons first rest =>
    have hrest : rest = (rest.reverse.dropWhile isTrivial).reverse ++
        (rest.reverse.takeWhile isTrivial).reverse := by
      rw [← List.reverse_append, List.takeWhile_append_dropWhile, List.reverse_reverse]
    have htrivial : ∀ s ∈ (rest.reverse.takeWhile isTrivial).reverse, isTrivial s = true :=
      fun s hs => List.mem_takeWhile_imp (List.mem_reverse.1 hs)
    conv_rhs => rw [hrest]
    rw [trimSegments, List.foldl_cons, List.foldl_cons, List.foldl_append,
      foldl_follow_of_isTrivial htrivial]

/-! ## Names -/

/-- The location of the directory that a path names a file in. -/
def home (path : String) : Location := (parent path).foldl Location.follow []

theorem name?_eq_some {path name : String} (h : name? path = some name) :
    IsName name ∧ trimSegments (segments path) = parent path ++ [name] := by
  obtain ⟨hlast, hname⟩ := Option.filter_eq_some_iff.1 h
  have hmem := trimSegments_subset _ (List.mem_of_getLast? hlast)
  refine ⟨⟨by simpa using hname, slash_not_mem_of_mem_segments hmem⟩, ?_⟩
  obtain ⟨init, hinit⟩ := List.getLast?_eq_some_iff.1 hlast
  rw [parent, hinit, List.dropLast_concat]

theorem location_of_name? {path name : String} (h : name? path = some name) :
    location path = home path ++ [name] := by
  obtain ⟨hname, htrim⟩ := name?_eq_some h
  rw [location, ← foldl_follow_trimSegments, htrim, List.foldl_append, List.foldl_cons,
    List.foldl_nil, Location.follow_name hname.1]
  rfl

theorem slash_not_mem_of_mem_parent {path segment : String} (h : segment ∈ parent path) :
    '/' ∉ segment.toList :=
  slash_not_mem_of_mem_segments (trimSegments_subset _ ((List.dropLast_sublist _).subset h))

theorem location_ofSegments {pieces : List String} {last : String}
    (h : ∀ s ∈ pieces, '/' ∉ s.toList) (hlast : '/' ∉ last.toList) :
    location (ofSegments (pieces ++ [last])) = (pieces.foldl Location.follow []).follow last := by
  rw [location, segments_ofSegments (by simp), List.foldl_append, List.foldl_cons, List.foldl_nil]
  intro s hs
  rcases List.mem_append.1 hs with hs | hs
  · exact h s hs
  · rwa [List.mem_singleton.1 hs]

theorem isName_of_length {segment : String} (hlen : 2 < segment.length)
    (hslash : '/' ∉ segment.toList) : IsName segment := by
  refine ⟨?_, hslash⟩
  have hne : ∀ short : String, short.length ≤ 2 → segment ≠ short := by
    rintro short hshort rfl
    omega
  simp [leadsToDirectory, isTrivial, hne "" (by decide), hne "." (by decide), hne ".." (by decide)]

/-! ## Extensions -/

/-- A name has no extension, or it is cut at its last dot, which is not its first character. -/
theorem splitExtension_cases (name : String) : splitExtension name = (name, none) ∨
    ∃ stem extension, splitExtension name = (stem, some extension) ∧ stem ≠ "" ∧
      '.' ∉ extension.toList ∧ name = stem ++ "." ++ extension := by
  unfold splitExtension
  dsimp only
  split
  · rename_i c rest hdrop
    refine .inr ⟨_, _, rfl, ?_, fun hdot => ?_, ?_⟩
    · simp [← String.toList_inj]
    · rw [String.toList_ofList, List.mem_reverse] at hdot
      exact absurd (List.mem_takeWhile_imp hdot) (by decide)
    · have hname := congrArg List.reverse
        (List.takeWhile_append_dropWhile (p := (· ≠ '.')) (l := name.toList.reverse))
      rw [hdrop, List.reverse_reverse] at hname
      rw [← String.toList_inj]
      exact hname.symm.trans (by simp)
  · exact .inl rfl

theorem slash_not_mem_stem {name : String} (h : '/' ∉ name.toList) : '/' ∉ (stem name).toList := by
  rw [stem]
  rcases splitExtension_cases name with hsplit | ⟨stem, extension, hsplit, -, -, rfl⟩ <;> rw [hsplit]
  · exact h
  · exact fun hslash => h (by simp [hslash])

/-- A name that is a stem with an ending has the extension that the ending shows. -/
theorem splitExtension_of_stem_append {name ending : String} (h : stem name ++ ending = name) :
    ending = "" ∨ ∃ extension, (splitExtension name).2 = some extension ∧
      ending = "." ++ extension := by
  rw [stem] at h
  rcases splitExtension_cases name with hsplit | ⟨stem, extension, hsplit, -, -, hname⟩
  · rw [hsplit] at h
    exact .inl (by simpa using h)
  · rw [hsplit] at h ⊢
    refine .inr ⟨extension, rfl, ?_⟩
    rw [hname, String.append_assoc] at h
    exact (String.append_right_inj stem).1 h

/-! ## Default paths -/

/-- The path leads to a file beside the one that `input` names. -/
def IsBeside (input path : String) : Prop :=
  ∃ name, IsName name ∧ location path = home input ++ [name]

theorem isName_stem_append {name ending : String} (h : IsName name) (hlen : 2 < ending.length)
    (hslash : '/' ∉ ending.toList) : IsName (stem name ++ ending) := by
  refine isName_of_length ?_ ?_
  · rw [String.length_append]
    omega
  · rw [String.toList_append, List.mem_append, not_or]
    exact ⟨slash_not_mem_stem h.2, hslash⟩

theorem location_processed {input name : String} (h : name? input = some name) :
    IsName (stem name ++ "_processed.asm") ∧
      location (processed input) = home input ++ [stem name ++ "_processed.asm"] := by
  have hname : IsName (stem name ++ "_processed.asm") :=
    isName_stem_append (name?_eq_some h).1 (by decide) (by decide)
  refine ⟨hname, ?_⟩
  rw [processed, h, location_ofSegments _ hname.2, foldl_follow_trimSegments,
    Location.follow_name hname.1]
  · rfl
  · exact fun s hs => slash_not_mem_of_mem_parent (trimSegments_subset _ hs)

theorem location_machineCode {input name : String} (h : name? input = some name)
    (hstep : isStepWithExtension (fileName input) = false) :
    IsName (stem name ++ ".dat") ∧
      location (machineCode input) = home input ++ [stem name ++ ".dat"] := by
  have hname : IsName (stem name ++ ".dat") :=
    isName_stem_append (name?_eq_some h).1 (by decide) (by decide)
  have hpath : machineCode input = ofSegments (parent input ++ [stem name ++ ".dat"]) := by
    simp [machineCode, h, hstep]
  refine ⟨hname, ?_⟩
  rw [hpath, location_ofSegments (fun s hs => slash_not_mem_of_mem_parent hs) hname.2,
    Location.follow_name hname.1]
  rfl

theorem location_machineCode_of_step {input name : String} (h : name? input = some name)
    (hstep : isStepWithExtension (fileName input) = true) :
    location (machineCode input) = (home input).parent := by
  have hpath : machineCode input = ofSegments (parent input ++ [".."]) := by
    simp [machineCode, h, hstep]
  rw [hpath, location_ofSegments (fun s hs => slash_not_mem_of_mem_parent hs) (by decide)]
  rfl

/-- What lies in a directory does not hold it. -/
theorem parent_ne_append_name {location : Location} {name : String} (h : IsName name) :
    location.parent ≠ location ++ [name] := by
  rw [Location.parent]
  split
  · intro heq
    have hname : ".." = name := by simpa using heq
    exact absurd h.1 (by rw [← hname]; decide)
  · intro heq
    have hlen := congrArg List.length heq
    simp only [List.length_dropLast, List.length_append, List.length_singleton] at hlen
    omega

theorem isBeside_processed {input name : String} (h : name? input = some name) :
    IsBeside input (processed input) :=
  ⟨_, location_processed h⟩

theorem isBeside_machineCode_iff {input name : String} (h : name? input = some name) :
    IsBeside input (machineCode input) ↔ isStepWithExtension (fileName input) = false := by
  refine ⟨fun hbeside => ?_, fun hstep => ⟨_, location_machineCode h hstep⟩⟩
  rw [← Bool.not_eq_true]
  intro hstep
  obtain ⟨other, hother, hlocation⟩ := hbeside
  rw [location_machineCode_of_step h hstep] at hlocation
  exact parent_ne_append_name hother hlocation

theorem machineCode_ne_processed {input name : String} (h : name? input = some name) :
    location (machineCode input) ≠ location (processed input) := by
  obtain ⟨hprocessed, hlocation⟩ := location_processed h
  rw [hlocation]
  cases hstep : isStepWithExtension (fileName input) with
  | true =>
    rw [location_machineCode_of_step h hstep]
    exact parent_ne_append_name hprocessed
  | false =>
    rw [(location_machineCode h hstep).2]
    exact fun heq => by simp at heq

theorem processed_ne_input {input name : String} (h : name? input = some name) :
    location (processed input) ≠ location input := by
  rw [(location_processed h).2, location_of_name? h]
  intro heq
  have hname : stem name ++ "_processed.asm" = name := by simpa using heq
  rcases splitExtension_of_stem_append hname with hending | ⟨extension, -, hending⟩
  · exact absurd hending (by decide)
  · have hhead := congrArg (·.toList.head?) hending
    exact absurd hhead (by simp)

/-- The machine code takes the place of the source only if the source has its extension. -/
theorem extension?_of_machineCode_eq {input name : String} (h : name? input = some name)
    (heq : location (machineCode input) = location input) : extension? input = some "dat" := by
  have hinput := location_of_name? h
  cases hstep : isStepWithExtension (fileName input) with
  | true =>
    rw [location_machineCode_of_step h hstep, hinput] at heq
    exact absurd heq (parent_ne_append_name (name?_eq_some h).1)
  | false =>
    rw [(location_machineCode h hstep).2, hinput] at heq
    have hname : stem name ++ ".dat" = name := by simpa using heq
    rw [extension?, h, Option.bind_some]
    rcases splitExtension_of_stem_append hname with hending | ⟨extension, hextension, hending⟩
    · exact absurd hending (by decide)
    · have hdat : "." ++ "dat" = "." ++ extension := hending
      rw [hextension, (String.append_right_inj _).1 hdat]

end Path

theorem Options.path_of_mem_writes {o : Options} {A : Assembly} {code : String}
    (houtput : o.output = none) (hprocessed : o.processedFile = none) (hsymbols : o.symbols = none)
    {w : String × String} (hw : w ∈ o.writes A code) :
    w.1 = Path.machineCode o.input ∨ w.1 = Path.processed o.input := by
  rw [writes, dumpPath?, houtput, hprocessed, hsymbols] at hw
  cases hdump : o.processed <;> simp [hdump] at hw
  · exact .inl (by rw [hw])
  · exact hw.imp (congrArg Prod.fst) (congrArg Prod.fst)

/-- A run that writes to no location of its source leaves the source alone. -/
theorem Options.read_run {o : Options} {f : Files}
    (h : ∀ A code, ∀ w ∈ o.writes A code, Path.location w.1 ≠ Path.location o.input) :
    (o.run f).files.read o.input = f.read o.input := by
  rcases o.run_cases f with ⟨-, -, -, hfiles⟩ | ⟨-, -, -, -, -, -, -, hfiles⟩ |
    ⟨source, A, code, done, rest, hsource, -, -, hwrites, hdone, -⟩
  · rw [hfiles]
  · rw [hfiles]
  · have hread := Files.readText_eq_ok.1 hsource
    rw [hread]
    refine Files.read_of_writeEach hdone (fun w hw => h A code w ?_) hread
    rw [hwrites]
    exact List.mem_append_left _ hw

/-- For every path that ends in a name, the dump goes beside the source, and so does the machine code,
with the exception of names that are `..` and an extension. The machine code, the dump and the source do
not share a location, save for the machine code and a source with the extension `dat`. So a run that
writes to the default paths leaves every other source as it was. -/
theorem Options.run_keeps_input {input name : String} (hname : Path.name? input = some name) :
    Path.IsBeside input (Path.processed input) ∧
    (Path.IsBeside input (Path.machineCode input) ↔
      Path.isStepWithExtension (Path.fileName input) = false) ∧
    Path.location (Path.machineCode input) ≠ Path.location (Path.processed input) ∧
    Path.location (Path.processed input) ≠ Path.location input ∧
    (Path.location (Path.machineCode input) = Path.location input →
      Path.extension? input = some "dat") ∧
    (Path.extension? input ≠ some "dat" → ∀ (o : Options) (f : Files), o.input = input →
      o.output = none → o.processedFile = none → o.symbols = none →
      (o.run f).files.read input = f.read input) := by
  refine ⟨Path.isBeside_processed hname, Path.isBeside_machineCode_iff hname,
    Path.machineCode_ne_processed hname, Path.processed_ne_input hname,
    Path.extension?_of_machineCode_eq hname, ?_⟩
  rintro hextension o f rfl houtput hprocessed hsymbols
  refine read_run fun A code w hw => ?_
  rcases path_of_mem_writes houtput hprocessed hsymbols hw with hpath | hpath <;> rw [hpath]
  · exact fun heq => hextension (Path.extension?_of_machineCode_eq hname heq)
  · exact Path.processed_ne_input hname

/-- A name with two dots in a directory, and its dump. -/
theorem Options.run_keeps_input_versioned :
    Path.name? "work/fib.v2.asm" = some "fib.v2.asm" ∧
    Path.extension? "work/fib.v2.asm" ≠ some "dat" ∧
    Path.IsBeside "work/fib.v2.asm" (Path.processed "work/fib.v2.asm") ∧
    Path.IsBeside "work/fib.v2.asm" (Path.machineCode "work/fib.v2.asm") ∧
    Path.location (Path.machineCode "work/fib.v2.asm") ≠
      Path.location (Path.processed "work/fib.v2.asm") ∧
    Path.location (Path.processed "work/fib.v2.asm") ≠ Path.location "work/fib.v2.asm" ∧
    Path.location (Path.machineCode "work/fib.v2.asm") ≠ Path.location "work/fib.v2.asm" ∧
    ∀ f : Files, (run { input := "work/fib.v2.asm", processed := true } f).files.read
      "work/fib.v2.asm" = f.read "work/fib.v2.asm" := by
  have hname : Path.name? "work/fib.v2.asm" = some "fib.v2.asm" := by decide
  have hextension : Path.extension? "work/fib.v2.asm" ≠ some "dat" := by decide
  obtain ⟨hprocessed, hmachine, hapart, hdump, hcode, hrun⟩ := run_keeps_input hname
  exact ⟨hname, hextension, hprocessed, hmachine.2 (by decide), hapart, hdump,
    fun heq => hextension (hcode heq), fun f => hrun hextension _ f rfl rfl rfl rfl⟩

/-! ## A source without a place for its machine code -/

theorem Files.write_step_up (f : Files) (contents : ByteArray) :
    f.write ".." contents = .error .isDirectory := by
  have hsplit : splitSlashes ".." = ([".."], false) := by decide
  rw [write, hsplit]
  rfl

/-- The machine code of a source with the name `..asm` is to go to the directory above, where it cannot
be written. The run fails although the source is in order. -/
theorem Options.run_steps_out :
    Path.name? "..asm" = some "..asm" ∧ Path.extension? "..asm" = some "asm" ∧
    Path.machineCode "..asm" = ".." ∧ ¬Path.IsBeside "..asm" (Path.machineCode "..asm") ∧
    ∃ f : Files, f.readText "..asm" = .ok "RET\n" ∧ (assemble {} "RET\n").isOk = true ∧
      (run { input := "..asm" } f).exit = 1 := by
  have hname : Path.name? "..asm" = some "..asm" := by decide
  have hpath : Path.machineCode "..asm" = ".." := by decide
  have hread : (⟨[(["..asm"], "RET\n".toUTF8)]⟩ : Files).readText "..asm" = .ok "RET\n" :=
    Files.readText_top (by decide) (by decide) (by decide) rfl
  obtain ⟨A, hA, hwords⟩ := assemble_ret
  refine ⟨hname, by decide, hpath, fun hbeside => ?_, _, hread, by rw [hA]; rfl, ?_⟩
  · exact absurd ((Path.isBeside_machineCode_iff hname).1 hbeside) (by decide)
  · obtain ⟨code, hcode⟩ : ∃ code, machineCode .hexadecimal {} A.words = some code :=
      ⟨_, machineCode_eq_some_iff.2 ⟨by rw [hwords]; decide, rfl⟩⟩
    obtain ⟨-, hend⟩ := run_of_assembled (o := { input := "..asm" }) hread hA hcode
    -- the first write goes to the directory above
    have hfails : ∀ (f : Files) rest, (f.writeAll ((Path.machineCode "..asm", code) :: rest)).2 =
        some ("..", .isDirectory) := by
      intro f rest
      rw [Files.writeAll, hpath, Files.write_step_up]
    rw [writes, Option.getD_none, hfails] at hend
    exact hend.1

end CompactRisc
