import CompactRisc.Command.Files
import CompactRisc.Proofs.Fallible

/-!
# Files and the paths to them

Where a path leads is a matter of its segments alone; the files only decide whether the way is open.
So a write through one path leaves a read through another path as it was, unless both lead to the
same location.

Results:
* `Files.get?_put`: a write changes the contents at one location.
* `Files.write_eq_ok`, `Files.read_eq_ok`: a write or a read that succeeds goes to the location of
  its path.
* `Files.get?_of_writeEach`: after some writes, every location has the contents of the last write to
  it.
* `Files.read_of_writeEach`: a file that no write leads to is read as before.
-/
namespace CompactRisc

/-! ## Locations -/

/-- The location that a segment leads to. -/
def Location.follow (location : Location) (segment : String) : Location :=
  if Path.isTrivial segment then location
  else if segment = ".." then location.parent
  else location ++ [segment]

def Path.location (path : String) : Location := (segments path).foldl Location.follow []

theorem Location.follow_of_isTrivial {segment : String} (h : Path.isTrivial segment = true)
    (location : Location) : location.follow segment = location := by
  rw [follow, if_pos h]

theorem Location.follow_name {name : String} (h : Path.leadsToDirectory name = false)
    (location : Location) : location.follow name = location ++ [name] := by
  simp only [Path.leadsToDirectory, Bool.or_eq_false_iff, decide_eq_false_iff_not] at h
  rw [follow, if_neg (by simp [h.1]), if_neg h.2]

theorem Path.directory_append_fileName (path : String) :
    directory path ++ [fileName path] = segments path := by
  have hne : segments path ≠ [] := by simp [segments]
  rw [directory, fileName, List.getLastD_eq_getLast?, List.getLast?_eq_some_getLast hne]
  exact List.dropLast_append_getLast hne

theorem Path.location_eq {path : String} (h : leadsToDirectory (fileName path) = false) :
    location path = (directory path).foldl Location.follow [] ++ [fileName path] := by
  rw [location, ← directory_append_fileName, List.foldl_append, List.foldl_cons, List.foldl_nil,
    Location.follow_name h]

namespace Files

/-! ## Contents -/

theorem lookup_cons_ne {location other : Location} (h : other ≠ location) (contents : ByteArray)
    (entries : List (Location × ByteArray)) :
    ((location, contents) :: entries).lookup other = entries.lookup other := by
  rw [List.lookup_cons, beq_false_of_ne h]

theorem lookup_replace (entries : List (Location × ByteArray)) (location other : Location)
    (contents : ByteArray) :
    (entries.map fun e => if e.1 = location then (e.1, contents) else (e.1, e.2)).lookup other =
      (entries.lookup other).map fun c => if other = location then contents else c := by
  induction entries with
  | nil => rfl
  | cons e entries ih =>
    obtain ⟨l, c⟩ := e
    rw [List.map_cons]
    by_cases hother : other = l
    · subst hother
      by_cases hl : other = location <;> simp [hl, List.lookup_cons_self]
    · rw [lookup_cons_ne hother, ← ih]
      by_cases hl : l = location <;> simp only [hl, if_true, if_false]
      · exact lookup_cons_ne (hl ▸ hother) _ _
      · exact lookup_cons_ne hother _ _

theorem get?_put (f : Files) (location other : Location) (contents : ByteArray) :
    (f.put location contents).get? other =
      if other = location then some contents else f.get? other := by
  by_cases hfile : f.isFile location = true
  · rw [put, if_pos hfile]
    refine (lookup_replace f.entries location other contents).trans ?_
    split
    · rename_i heq
      obtain ⟨old, hold⟩ := Option.isSome_iff_exists.1 hfile
      rw [heq, show f.entries.lookup location = some old from hold]
      rfl
    · exact Option.map_id'
  · rw [put, if_neg hfile, get?, List.lookup_append]
    split
    · rename_i heq
      rw [heq, show f.entries.lookup location = none from Option.not_isSome_iff_eq_none.1 hfile,
        List.lookup_cons_self, Option.none_or]
    · rename_i hne
      rw [lookup_cons_ne hne, List.lookup_nil, Option.or_none, get?]

theorem isDirectory_put {f : Files} {directory : Location} (h : f.isDirectory directory = true)
    (location : Location) (contents : ByteArray) :
    (f.put location contents).isDirectory directory = true := by
  rw [isDirectory, Bool.or_eq_true] at h ⊢
  refine h.imp_right fun h => ?_
  obtain ⟨e, he, hlt⟩ := List.any_eq_true.1 h
  obtain ⟨l, c⟩ := e
  rw [List.any_eq_true, put]
  split
  · by_cases hl : l = location
    · exact ⟨(l, contents), List.mem_map.2 ⟨(l, c), he, if_pos hl⟩, hlt⟩
    · exact ⟨(l, c), List.mem_map.2 ⟨(l, c), he, if_neg hl⟩, hlt⟩
  · exact ⟨(l, c), List.mem_append_left _ he, hlt⟩

/-! ## Ways -/

/-- A segment leads where it says, if it is a way at all: it leads nowhere or up, or to a directory
with a name that is not too long. -/
theorem enter_eq_ok {f : Files} {location next : Location} {segment : String} :
    f.enter location segment = .ok next ↔ location.follow segment = next ∧
      (Path.isTrivial segment = true ∨ segment = ".." ∨
        Path.isLongName segment = false ∧ f.isDirectory (location ++ [segment]) = true) := by
  unfold enter Location.follow
  by_cases htrivial : Path.isTrivial segment = true
  · simp [htrivial]
  by_cases hstep : segment = ".."
  · subst hstep
    simp [htrivial]
  by_cases hlong : Path.isLongName segment = true
  · simp [htrivial, hstep, hlong]
  by_cases hdirectory : f.isDirectory (location ++ [segment]) = true
  · simp [htrivial, hstep, hlong, hdirectory]
  · by_cases hfile : f.isFile (location ++ [segment]) = true <;>
      simp [htrivial, hstep, hlong, hdirectory, hfile]

theorem enter_put {f : Files} {location next : Location} {segment : String}
    (h : f.enter location segment = .ok next) (target : Location) (contents : ByteArray) :
    (f.put target contents).enter location segment = .ok next := by
  rw [enter_eq_ok] at h ⊢
  exact h.imp_right (Or.imp_right (Or.imp_right (And.imp_right
    fun hdirectory => isDirectory_put hdirectory target contents)))

theorem walk_eq_ok {f : Files} {path : String} {segments : List String} {location : Location}
    (h : f.walk path segments = .ok location) :
    segments.foldl Location.follow [] = location := by
  rw [walk] at h
  split at h
  · cases h
  · have hfollow := foldlM_mono (fun l s => pure (l.follow s))
      (fun l s next hnext => congrArg Except.ok (enter_eq_ok.1 hnext).1) h
    rw [List.foldlM_pure] at hfollow
    exact Except.ok.inj hfollow

theorem walk_put {f : Files} {path : String} {segments : List String} {location : Location}
    (h : f.walk path segments = .ok location) (target : Location) (contents : ByteArray) :
    (f.put target contents).walk path segments = .ok location := by
  rw [walk] at h ⊢
  split
  · rename_i hlong
    rw [if_pos hlong] at h
    cases h
  · rename_i hlong
    rw [if_neg hlong] at h
    exact foldlM_mono _ (fun l s next hnext => enter_put hnext target contents) h

/-! ## Reading and writing -/

theorem read_eq_ok {f : Files} {path : String} {contents : ByteArray} :
    f.read path = .ok contents ↔ ∃ location, f.walk path (Path.directory path) = .ok location ∧
      Path.leadsToDirectory (Path.fileName path) = false ∧
      Path.isLongName (Path.fileName path) = false ∧
      f.get? (location ++ [Path.fileName path]) = some contents := by
  rw [read, bind_eq_ok]
  refine exists_congr fun location => and_congr_right fun _ => ?_
  by_cases hdirectory : Path.leadsToDirectory (Path.fileName path) = true
  · simp [hdirectory]
  by_cases hlong : Path.isLongName (Path.fileName path) = true
  · simp [hdirectory, hlong]
  simp only [hdirectory, hlong]
  cases hcontents : f.get? (location ++ [Path.fileName path]) with
  | some c => simp
  | none => by_cases hd : f.isDirectory (location ++ [Path.fileName path]) = true <;> simp [hd]

theorem fromUTF8?_eq_some {contents : ByteArray} {text : String} :
    String.fromUTF8? contents = some text ↔ contents = text.toUTF8 := by
  rw [String.fromUTF8?]
  split
  · rw [Option.some.injEq]
    refine ⟨fun htext => ?_, fun hcontents => ?_⟩
    · rw [← htext]
      rfl
    · subst hcontents
      rfl
  · rename_i hinvalid
    refine ⟨fun htext => (by cases htext), fun hcontents => ?_⟩
    rw [hcontents] at hinvalid
    exact absurd text.isValidUTF8 hinvalid

theorem readText_eq_ok {f : Files} {path text : String} :
    f.readText path = .ok text ↔ f.read path = .ok text.toUTF8 := by
  rw [readText, bind_eq_ok]
  refine ⟨fun h => ?_, fun hread => ⟨text.toUTF8, hread, ?_⟩⟩
  · obtain ⟨contents, hread, h⟩ := h
    cases htext : String.fromUTF8? contents with
    | none =>
      rw [htext] at h
      cases h
    | some t =>
      rw [htext] at h
      cases h
      rw [hread, fromUTF8?_eq_some.1 htext]
  · rw [fromUTF8?_eq_some.2 rfl]
    rfl

theorem readText_top {f : Files} {path text : String} (hdirectory : Path.directory path = [])
    (hlong : Path.isLong path = false)
    (hname : Path.leadsToDirectory (Path.fileName path) = false ∧
      Path.isLongName (Path.fileName path) = false)
    (h : f.get? [Path.fileName path] = some text.toUTF8) : f.readText path = .ok text := by
  refine readText_eq_ok.2 (read_eq_ok.2 ⟨[], ?_, hname.1, hname.2, h⟩)
  rw [hdirectory, walk, hlong]
  rfl

theorem splitSlashes_eq {path : String} (h : (splitSlashes path).2 = false) :
    (splitSlashes path).1 = Path.segments path := by
  have hlast : (Path.segments path).reverse.head? ≠ some "" := of_decide_eq_false h
  show ((Path.segments path).reverse.dropWhile (· = "")).reverse = Path.segments path
  cases hreverse : (Path.segments path).reverse with
  | nil => rw [List.reverse_eq_nil_iff.1 hreverse]; rfl
  | cons segment rest =>
    rw [hreverse, List.head?_cons, ne_eq, Option.some.injEq] at hlast
    rw [List.dropWhile_cons_of_neg (by simpa using hlast), ← hreverse, List.reverse_reverse]

/-- A write that succeeds changes the contents at the location of the path. -/
theorem write_eq_ok {f f' : Files} {path : String} {contents : ByteArray}
    (h : f.write path contents = .ok f') : f.put (Path.location path) contents = f' := by
  unfold write at h
  dsimp only at h
  obtain ⟨location, hwalk, h⟩ := bind_eq_ok.1 h
  split at h
  · cases h
  rename_i hname
  simp only [Bool.or_eq_true, not_or, Bool.not_eq_true] at hname
  obtain ⟨hslash, hname⟩ := hname
  rw [splitSlashes_eq hslash] at hwalk hname h
  split at h
  · cases h
  split at h
  · cases h
  rw [← walk_eq_ok hwalk] at h
  rw [Path.location_eq hname]
  exact Except.ok.inj h

theorem read_of_write {f f' : Files} {path other : String} {contents written : ByteArray}
    (hwrite : f.write path written = .ok f') (hne : Path.location path ≠ Path.location other)
    (hread : f.read other = .ok contents) : f'.read other = .ok contents := by
  rw [← write_eq_ok hwrite]
  obtain ⟨location, hwalk, hname, hlong, hcontents⟩ := read_eq_ok.1 hread
  refine read_eq_ok.2 ⟨location, walk_put hwalk _ _, hname, hlong, ?_⟩
  rw [get?_put, if_neg, hcontents]
  rw [Path.location_eq hname, walk_eq_ok hwalk] at hne
  exact hne.symm

/-! ## Writes one after another -/

/-- The files after some writes, if all of them succeed. -/
def writeEach (f : Files) (writes : List (String × String)) : Except FileError Files :=
  writes.foldlM (fun f w => f.write w.1 w.2.toUTF8) f

theorem read_of_writeEach {f f' : Files} {writes : List (String × String)} {path : String}
    {contents : ByteArray} (h : f.writeEach writes = .ok f')
    (hne : ∀ w ∈ writes, Path.location w.1 ≠ Path.location path)
    (hread : f.read path = .ok contents) : f'.read path = .ok contents := by
  induction writes generalizing f with
  | nil =>
    cases h
    exact hread
  | cons w writes ih =>
    rw [writeEach, List.foldlM_cons] at h
    obtain ⟨g, hg, h⟩ := bind_eq_ok.1 h
    exact ih h (fun w hw => hne w (List.mem_cons_of_mem _ hw))
      (read_of_write hg (hne w List.mem_cons_self) hread)

/-- The writes are done one after another up to the first that fails. -/
theorem writeAll_spec (f : Files) (writes : List (String × String)) :
    ∃ done rest, writes = done ++ rest ∧ f.writeEach done = .ok (f.writeAll writes).1 ∧
      match (f.writeAll writes).2 with
      | none => rest = []
      | some (path, e) => ∃ text, rest.head? = some (path, text) ∧
          (f.writeAll writes).1.write path text.toUTF8 = .error e := by
  induction writes generalizing f with
  | nil => exact ⟨[], [], rfl, rfl, rfl⟩
  | cons w writes ih =>
    obtain ⟨path, text⟩ := w
    rw [writeAll]
    cases hwrite : f.write path text.toUTF8 with
    | error e => exact ⟨[], _, rfl, rfl, text, rfl, hwrite⟩
    | ok g =>
      obtain ⟨done, rest, hwrites, hdone, hrest⟩ := ih g
      refine ⟨(path, text) :: done, rest, by rw [hwrites]; rfl, ?_, hrest⟩
      rw [writeEach, List.foldlM_cons]
      exact bind_eq_ok.2 ⟨g, hwrite, hdone⟩

end Files

end CompactRisc
