import Kleene.Proofs.Results
import Kleene.Service.Directory

/-!
# Files that are written and read again

`Directory.Locates` says that a path is that of a file, and at which way the file is. Exactly at
such a path a file can be written (`write_eq_ok_iff`), and read if there is one (`read_eq_ok_iff`).
What is read at the path afterwards is what was written (`Locates.read_put`), unless the way is that
of the sink.
-/

set_option autoImplicit false

namespace Kleene.Directory

variable {d : Directory} {way : Way} {bytes : List UInt8}

/-! ## A file at a way -/

/-- A file more changes no directory. -/
@[simp] theorem folders_put (d : Directory) (way : Way) (bytes : List UInt8) :
    (d.put way bytes).folders = d.folders := by
  unfold put
  split <;> rfl

/-- A file more changes nothing about which ways lead to directories. -/
@[simp] theorem isFolder_put (d : Directory) (way other : Way) (bytes : List UInt8) :
    (d.put way bytes).isFolder other = d.isFolder other := by
  simp only [isFolder, folders_put]

/-- What is put at a way is there, unless it is the way of the sink. -/
theorem bytesAt_put (d : Directory) (bytes : List UInt8) (h : way ≠ sink) :
    (d.put way bytes).bytesAt way = some bytes := by
  have hsink : ¬(way == sink) = true := by simpa using h
  have hother : (d.files.filter (fun file => file.1 != way)).lookup way = none := by
    rw [List.lookup_eq_none_iff]
    intro file hfile
    rw [bne_comm]
    exact (List.mem_filter.mp hfile).2
  rw [put, if_neg hsink, bytesAt, if_neg hsink, List.lookup_append, hother]
  simp

/-- The way on from a way is the same with a file more. -/
theorem step_put {other next : Way} {name : String} (h : d.step other name = .ok next) :
    (d.put way bytes).step other name = .ok next := by
  unfold step at h ⊢
  rw [isFolder_put]
  split at h
  · cases h
  · next hfolder => rwa [if_neg hfolder]

/-- The way along some names is the same with a file more. -/
theorem foldlM_step_put {names : List String} {other next : Way}
    (h : names.foldlM d.step other = .ok next) :
    names.foldlM (d.put way bytes).step other = .ok next := by
  induction names generalizing other with
  | nil => exact h
  | cons name names ih =>
    rw [List.foldlM_cons] at h ⊢
    obtain ⟨middle, hstep, hrest⟩ := bind_eq_ok_iff.mp h
    exact bind_eq_ok_iff.mpr ⟨middle, step_put hstep, ih hrest⟩

/-! ## A file at a path -/

/-- The way that a path leads to. -/
def wayTo (d : Directory) (path : String) : Except FileError Way := do
  let (origin, names) ← start path
  names.foldlM d.step origin

/-- A path that is a single name leads to what has this name in the directory itself. -/
theorem wayTo_name (d : Directory) {name : String} (hsplit : name.splitOn "/" = [name])
    (hname : name ∉ ["", ".", ".."]) (hlength : (Text.encodeUtf8 name).length ≤ maxNameLength)
    (habsolute : name.startsWith "/" = false) : d.wayTo name = .ok (home ++ [name]) := by
  simp only [List.mem_cons, List.not_mem_nil, or_false, not_or] at hname
  obtain ⟨hempty, hhere, hup⟩ := hname
  have hpath : ¬(Text.encodeUtf8 name).length > maxPathLength := by
    simp only [maxNameLength, maxPathLength] at hlength ⊢
    omega
  have hstart : start name = .ok (home, [name]) := by
    simp [start, hempty, hpath, hsplit, habsolute]
  have hstep : d.step home name = .ok (home ++ [name]) := by
    have hfolder : d.isFolder home = true := rfl
    simp [step, hfolder, hempty, hhere, hup, hlength]
  exact bind_eq_ok_iff.mpr ⟨(home, [name]), hstart, bind_eq_ok_iff.mpr ⟨_, hstep, rfl⟩⟩

/-- A path locates a file: it leads to the way of the file, which is that of no directory, and it
does not end as the path of a directory does. -/
structure Locates (d : Directory) (path : String) (way : Way) : Prop where
  wayTo_eq : d.wayTo path = .ok way
  isFolder_eq : d.isFolder way = false
  endsWith_eq : path.endsWith "/" = false

/-- A path locates the same file with a file more. -/
theorem Locates.put {path : String} {file : Way} (h : d.Locates path file) :
    (d.put way bytes).Locates path file where
  wayTo_eq := by
    obtain ⟨⟨origin, names⟩, hstart, hnames⟩ := bind_eq_ok_iff.mp h.wayTo_eq
    exact bind_eq_ok_iff.mpr ⟨⟨origin, names⟩, hstart, foldlM_step_put hnames⟩
  isFolder_eq := by rw [isFolder_put, h.isFolder_eq]
  endsWith_eq := h.endsWith_eq

/-- The empty name leads to the directory that it is looked up in. -/
theorem isFolder_of_step_empty {other : Way} (h : d.step way "" = .ok other) :
    d.isFolder other = true := by
  unfold step at h
  split at h
  · cases h
  · next hfolder =>
    obtain rfl := Except.ok.inj h
    simpa using hfolder

/-- A path starts from a directory. -/
theorem isFolder_of_start {path : String} {origin : Way} {names : List String}
    (h : start path = .ok (origin, names)) : d.isFolder origin = true := by
  unfold start at h
  split at h
  · cases h
  split at h
  · cases h
  obtain ⟨rfl, -⟩ := Prod.mk.inj (Except.ok.inj h)
  split <;> rfl

/-- What is read at a path are the bytes of the file that it locates. -/
theorem read_eq_ok_iff {path : String} :
    d.read path = .ok bytes ↔ ∃ way, d.Locates path way ∧ d.bytesAt way = some bytes := by
  constructor
  · intro h
    obtain ⟨⟨origin, names⟩, hstart, h⟩ := bind_eq_ok_iff.mp h
    obtain ⟨way, hnames, h⟩ := bind_eq_ok_iff.mp h
    split at h
    · cases h
    next hfolder =>
    split at h
    · next found hbytes =>
      split at h
      · cases h
      next hend =>
      rw [Bool.not_eq_true] at hend hfolder
      obtain rfl := Except.ok.inj h
      exact ⟨way, ⟨bind_eq_ok_iff.mpr ⟨⟨origin, names⟩, hstart, hnames⟩, hfolder, hend⟩, hbytes⟩
    · cases h
  · rintro ⟨way, hfile, hbytes⟩
    obtain ⟨⟨origin, names⟩, hstart, hnames⟩ := bind_eq_ok_iff.mp hfile.wayTo_eq
    refine bind_eq_ok_iff.mpr ⟨⟨origin, names⟩, hstart, ?_⟩
    refine bind_eq_ok_iff.mpr ⟨way, hnames, ?_⟩
    rw [hfile.isFolder_eq, hbytes, hfile.endsWith_eq]
    rfl

/-- The last name on a path leads to the file from the directory that the names before it lead
to. -/
theorem foldlM_step_eq_ok_iff {origin : Way} {names : List String}
    (horigin : d.isFolder origin = true) (hfolder : d.isFolder way = false) :
    names.foldlM d.step origin = .ok way ↔ ∃ parent,
      names.dropLast.foldlM d.step origin = .ok parent ∧
        d.step parent (names.getLast?.getD "") = .ok way := by
  obtain rfl | ⟨init, last, rfl⟩ := names.eq_nil_or_concat'
  · -- without a name there is only a directory
    refine iff_of_false (fun h => ?_) (fun ⟨parent, _, h⟩ => ?_)
    · obtain rfl := Except.ok.inj h
      exact absurd horigin (by simp [hfolder])
    · exact absurd (isFolder_of_step_empty h) (by simp [hfolder])
  · rw [List.dropLast_concat, List.getLast?_concat, Option.getD_some, List.foldlM_append,
      bind_eq_ok_iff]
    simp only [List.foldlM_cons, List.foldlM_nil, bind_pure]

/-- What is written to a path is put at the way of the file that it locates. -/
theorem write_eq_ok_iff {d' : Directory} {path : String} :
    d.write path bytes = .ok d' ↔ ∃ way, d.Locates path way ∧ d' = d.put way bytes := by
  constructor
  · intro h
    obtain ⟨⟨origin, names⟩, hstart, h⟩ := bind_eq_ok_iff.mp h
    obtain ⟨parent, hparent, h⟩ := bind_eq_ok_iff.mp h
    dsimp only at h
    split at h
    · obtain ⟨_, -, h⟩ := bind_eq_ok_iff.mp h
      cases h
    next hend =>
    obtain ⟨way, hlast, h⟩ := bind_eq_ok_iff.mp h
    split at h
    · cases h
    next hfolder =>
    rw [Bool.not_eq_true] at hend hfolder
    have hnames := (foldlM_step_eq_ok_iff (isFolder_of_start hstart) hfolder).mpr
      ⟨parent, hparent, hlast⟩
    exact ⟨way, ⟨bind_eq_ok_iff.mpr ⟨⟨origin, names⟩, hstart, hnames⟩, hfolder, hend⟩,
      (Except.ok.inj h).symm⟩
  · rintro ⟨way, hfile, rfl⟩
    obtain ⟨⟨origin, names⟩, hstart, hnames⟩ := bind_eq_ok_iff.mp hfile.wayTo_eq
    obtain ⟨parent, hparent, hlast⟩ :=
      (foldlM_step_eq_ok_iff (isFolder_of_start hstart) hfile.isFolder_eq).mp hnames
    refine bind_eq_ok_iff.mpr ⟨⟨origin, names⟩, hstart, ?_⟩
    refine bind_eq_ok_iff.mpr ⟨parent, hparent, ?_⟩
    rw [hfile.endsWith_eq]
    refine bind_eq_ok_iff.mpr ⟨way, hlast, ?_⟩
    rw [hfile.isFolder_eq]
    rfl

/-- What is put at the way of a file is read at its path. -/
theorem Locates.read_put {path : String} (h : d.Locates path way) (hsink : way ≠ sink)
    (bytes : List UInt8) : (d.put way bytes).read path = .ok bytes :=
  read_eq_ok_iff.mpr ⟨way, h.put, bytesAt_put d bytes hsink⟩

end Kleene.Directory
