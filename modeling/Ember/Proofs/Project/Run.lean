import Ember.Project.Run

/-!
# What running a project leaves

Files are compiled one by one, and each leaves at most one file. Behind a run every place of the disk holds what it held, or what one of
the inputs made (`Disk.file?_compile`), and there is one report for every input, in their order (`Disk.paths_compile`). Nothing keeps two
inputs from being written to one place, which then holds what was made last.
-/

namespace Ember

namespace Disk

theorem lookup_map_keys {α β : Type} [BEq α] [LawfulBEq α] (change : α → β → β) (a : α) (l : List (α × β)) :
    (l.map fun x => (x.1, change x.1 x.2)).lookup a = (l.lookup a).map (change a) := by
  induction l with
  | nil => rfl
  | cons x l ih =>
    rw [List.map_cons, List.lookup_cons, List.lookup_cons, ih]
    cases ha : a == x.1 with
    | true => rw [eq_of_beq ha]; rfl
    | false => rfl

/-- Putting a file at a place changes that place only. -/
theorem file?_put (d : Disk) (place q : Place) (c : Content) : (d.put place c).file? q = if q = place then some c else d.file? q := by
  unfold put
  split
  · rename_i hsome
    have hlookup := lookup_map_keys (fun file old => if file = place then c else old) q d.files
    refine hlookup.trans ?_
    split
    · rename_i hq
      subst hq
      obtain ⟨old, hold⟩ := Option.isSome_iff_exists.mp hsome
      rw [show d.files.lookup q = some old from hold, Option.map_some]
    · exact congrFun Option.map_id (d.files.lookup q)
  · rename_i hnone
    have hold : d.files.lookup place = none := Option.not_isSome_iff_eq_none.mp hnone
    show (d.files ++ [(place, c)]).lookup q = _
    rw [List.lookup_append]
    split
    · rename_i hq
      subst hq
      simp [hold]
    · rename_i hq
      simp [file?, List.lookup_cons, beq_eq_false_iff_ne.mpr hq]

/-- What is written goes to one place. -/
theorem write_eq_ok {d d' : Disk} {path : String} {c : Content} (h : d.write path c = .ok d') : ∃ place, d' = d.put place c := by
  unfold write at h
  cases hlocate : d.locate true path with
  | error failure =>
    rw [hlocate] at h
    cases h
  | ok entry =>
    rw [hlocate] at h
    cases entry with
    | directory => cases h
    | file place | free place =>
      cases h
      exact ⟨place, rfl⟩

end Disk

namespace Run

/-- What a job makes of an input for the disk. -/
def made (o : Options) : String × Except AccessFailure String → Option Content
  | (path, .ok contents) =>
    match (Compilation.product ⟨path, contents⟩ o).result with
    | (.ok p, _) => p.artifact.map (·.2)
    | (.error _, _) => none
  | (_, .error _) => none

/-- A job leaves the disk as it was, or puts what it makes at one place. -/
theorem disk_job (o : Options) (r : Run) (input : String × Except AccessFailure String) :
    (r.job o input).disk = r.disk ∨ ∃ place c, made o input = some c ∧ (r.job o input).disk = r.disk.put place c := by
  obtain ⟨path, contents | contents⟩ := input
  · exact .inl rfl
  · simp only [job, compile, made]
    split
    · exact .inl rfl
    · rename_i p journal hp
      simp only [deliver]
      cases hartifact : p.artifact with
      | none => exact .inl rfl
      | some artifact =>
        cases hwrite : r.disk.write artifact.1 artifact.2 with
        | error failure => exact .inl (by simp [hwrite, record])
        | ok disk =>
          obtain ⟨place, rfl⟩ := Disk.write_eq_ok hwrite
          exact .inr ⟨place, artifact.2, by simp [hp, hartifact], by simp [hwrite, record]⟩

/-- Writing what a job made adds no report. -/
theorem reports_deliver {r r' : Run} {p : Product} (h : r.deliver p = .ok r') : r'.reports = r.reports := by
  simp only [deliver] at h
  split at h
  · cases h
    rfl
  · split at h
    · cases h
      rfl
    · cases h

/-- A job adds the report on its input. -/
theorem paths_job (o : Options) (r : Run) (input : String × Except AccessFailure String) :
    (r.job o input).reports.map (·.path) = r.reports.map (·.path) ++ [input.1] := by
  obtain ⟨path, contents | contents⟩ := input
  · simp [job, record, FileReport.failed]
  · simp only [job, compile]
    split
    · simp [record, FileReport.failed]
    · split
      · simp [record, FileReport.failed]
      · rename_i hdeliver
        simp [record, FileReport.compiled, reports_deliver hdeliver]

/-- After some jobs a place holds what it held, or what one of them made. -/
theorem file?_foldl_job (o : Options) (inputs : List (String × Except AccessFailure String)) (r : Run) (place : Place) :
    (inputs.foldl (job o) r).disk.file? place = r.disk.file? place ∨
      ∃ input ∈ inputs, ∃ c, made o input = some c ∧ (inputs.foldl (job o) r).disk.file? place = some c := by
  induction inputs generalizing r with
  | nil => exact .inl rfl
  | cons input inputs ih =>
    rcases ih (r.job o input) with h | ⟨other, hmem, h⟩
    · rcases disk_job o r input with hdisk | ⟨q, c, hmade, hdisk⟩
      · exact .inl (h.trans (by rw [hdisk]))
      · rw [hdisk, Disk.file?_put] at h
        split at h
        · exact .inr ⟨input, List.mem_cons_self, c, hmade, h⟩
        · exact .inl h
    · exact .inr ⟨other, List.mem_cons_of_mem _ hmem, h⟩

end Run

namespace Disk

/-- Running a project leaves at every place what was there, or what one of the inputs made. -/
theorem file?_compile (d : Disk) (o : Options) (place : Place) : (d.compile o).disk.file? place = d.file? place ∨
    ∃ path ∈ o.inputs, ∃ c, Run.made o (path, d.read path) = some c ∧ (d.compile o).disk.file? place = some c := by
  rcases Run.file?_foldl_job o (o.inputs.map fun path => (path, d.read path)) { disk := d } place with h | ⟨_, hmem, h⟩
  · exact .inl h
  · obtain ⟨path, hpath, rfl⟩ := List.mem_map.mp hmem
    exact .inr ⟨path, hpath, h⟩

/-- There is one report for every input, in their order. -/
theorem paths_compile (d : Disk) (o : Options) : (d.compile o).reports.map (·.path) = o.inputs := by
  have hfold : ∀ (inputs : List (String × Except AccessFailure String)) (r : Run),
      (inputs.foldl (Run.job o) r).reports.map (·.path) = r.reports.map (·.path) ++ inputs.map (·.1) := by
    intro inputs
    induction inputs with
    | nil => simp
    | cons input inputs ih =>
      intro r
      rw [List.foldl_cons, ih, Run.paths_job, List.map_cons, List.append_assoc, List.singleton_append]
  exact (hfold _ _).trans (by simp [Function.comp_def])

end Disk

end Ember
