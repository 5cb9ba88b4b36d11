import EclipseProject.Proofs.Disk.Descending
import EclipseProject.Proofs.Workspace.Journal

/-!
# Directories created below a root

Below a root that is a directory, every path of names and dots can be made where no file is on the way, with all the
parents that are missing. Only a path that ends in a dot is refused, unless it leads to a directory already: the parent
of `a/.` is what stands before `a`, so `a` itself is not made.
-/

namespace EclipseProject

/-! ## Paths that lead down -/

def Component.Descends : Component → Prop
  | .current => True
  | .name n => n.length ≤ Disk.maxName
  | .root => False
  | .parent => False

instance : DecidablePred Component.Descends
  | .current => isTrue trivial
  | .name n => inferInstanceAs (Decidable (n.length ≤ Disk.maxName))
  | .root => isFalse id
  | .parent => isFalse id

namespace Path

/-- Names that are not too long, and dots. -/
def Descending (q : Path) : Prop := ∀ c ∈ q.components, c.Descends

instance (q : Path) : Decidable q.Descending := inferInstanceAs (Decidable (∀ c ∈ q.components, c.Descends))

variable {q : Path} (hq : q.Descending)
include hq

theorem Descending.relative : q.isAbsolute = false := by
  refine Bool.eq_false_iff.mpr fun h => ?_
  exact hq .root (by simp [components, h])

theorem Descending.fits : Disk.Fits q.pieces := by
  intro n hn
  have hcomponent : ∀ c, component? n = some c → c.Descends := fun c hc => by
    have hmem : c ∈ q.pieces.filterMap component? := List.mem_filterMap.mpr ⟨n, hn, hc⟩
    exact hq c (by simp [components, hq.relative, hmem])
  by_cases hdot : n = dot
  · rw [hdot]
    decide
  by_cases hdotDot : n = dotDot
  · exact (hcomponent .parent (by rw [component?, if_neg hdot, if_pos hdotDot])).elim
  · exact ⟨hdotDot, hcomponent (.name n) (by rw [component?, if_neg hdot, if_neg hdotDot])⟩

theorem Descending.names_eq : q.names = undotted q.pieces :=
  names_eq_filter hq.relative fun h => (hq.fits dotDot h).1 rfl

end Path

theorem Disk.descends_join {d : Disk} {root q : Path} {r : Location} (hr : d.LeadsTo root r) (hq : q.Descending)
    (hfree : d.Free r q.names) (ha : accept (root.join q) = .ok ()) : d.Descends (root.join q) r q.pieces := by
  refine ⟨ha, ⟨root.pieces, Path.pieces_join hq.relative, ?_⟩, hr.2, hq.fits, hq.names_eq ▸ hfree⟩
  rw [start_join hq.relative]
  exact (resolve_ok_iff.mp hr.1).2.1

namespace Workspace

variable {w w' : Workspace} {s s' : Session} {q : Path}

/-! ## A disk with one directory -/

def singleDirectory : Session := .ofDisk (Disk.empty.put [Utf8.encode "r"] .directory)

theorem directory_of_singleDirectory {l : Location} {x : Entry} (h : singleDirectory.disk.entry? l = some x) :
    x = .directory := by
  have hempty : Disk.entries .empty = ∅ := rfl
  rw [singleDirectory, Session.ofDisk, Disk.entry?_put _ (by simp)] at h
  split at h
  · exact (Option.some.inj h).symm
  · rw [Disk.entry?, hempty] at h
    split at h
    · exact (Option.some.inj h).symm
    · simp at h

theorem leadsTo_singleDirectory : singleDirectory.disk.LeadsTo (.ofString "r") [Utf8.encode "r"] :=
  ⟨by decide +kernel, by decide +kernel⟩

/-! ## Creating a directory -/

theorem isOk_createDirectory_iff (hw : w.dryRun = false) :
    ((w.createDirectory q).on s).answer.isOk = true ↔ ∃ d, s.disk.ensureDirectory (w.root.join q) = (.ok (), d) := by
  rw [on_createDirectory w q s hw]
  cases s.disk.ensureDirectory (w.root.join q) with
  | mk o d => cases o <;> simp [Except.isOk, Except.toBool]

/-- **Directories below a root.** Where no file is on the way, a path of names and dots is made unless it ends in a dot
and does not lead to a directory yet. If it is made, everything on the way is a directory, nothing else is new, and
making it again does nothing. -/
theorem createDirectory_descends (w : Workspace) (hw : w.dryRun = false) (s : Session) (q : Path) {r : Location}
    (hr : s.disk.LeadsTo w.root r) (hq : q.Descending) (hfree : s.disk.Free r q.names)
    (hnul : 0 ∉ (w.root.join q).bytes) (hlength : (w.root.join q).bytes.length < Disk.maxPath) :
    (((w.createDirectory q).on s).answer.isOk = true ↔
      q.pieces.getLast? ≠ some Path.dot ∨ s.disk.entry? (r ++ q.names) = some .directory) ∧
    ∀ w' s', (w.createDirectory q).on s = ⟨.ok (), w', s'⟩ →
      (∀ ns, ns <+: (w.root.join q).pieces → ∃ l,
        s'.disk.walk (s'.disk.start (w.root.join q)) ns = .ok l ∧ s'.disk.entry? l = some .directory) ∧
      s'.disk.There r q.names ∧
      (∀ l, s'.disk.entry? l ≠ s.disk.entry? l → s.disk.entry? l = none ∧ ∃ ms, ms <+: q.names ∧ l = r ++ ms) ∧
      ∃ w'' s'', (w'.createDirectory q).on s' = ⟨.ok (), w'', s''⟩ ∧ s''.disk = s'.disk := by
  have haccept : Disk.accept (w.root.join q) = .ok () :=
    Disk.accept_ok_iff.mpr ⟨hnul, Path.bytes_join_ne_nil hq.relative hr.bytes_ne_nil, hlength⟩
  have hdescends := Disk.descends_join hr hq hfree haccept
  refine ⟨?_, fun w' s' h => ?_⟩
  · rw [isOk_createDirectory_iff hw, Disk.ensureDirectory_ok_iff hdescends, hq.names_eq]
    rfl
  · have hplace : (w.place ⟨q, none⟩).on s = ⟨.ok (), w', s'⟩ := h
    have hmade : s.disk.ensureDirectory (w.root.join q) = (.ok (), s'.disk) := disk_of_place_ok hw hplace
    have hadds := Disk.adds_ensureLineage hmade
    have hthere : s'.disk.There r (Path.undotted q.pieces) := Disk.there_of_ensureDirectory hdescends hmade
    have hagain := hdescends.of_adds hadds
    refine ⟨fun ns hns => ?_, hq.names_eq ▸ hthere, fun l hl => ?_, ?_⟩
    · obtain ⟨_, hwalk, _⟩ := Disk.resolve_ok_iff.mp (hagain.leadsTo hthere).1
      obtain ⟨more, hmore⟩ := hns
      rw [← hmore, Disk.walk_append_ok_iff] at hwalk
      obtain ⟨l, hl, hrest⟩ := hwalk
      exact ⟨l, hl, Disk.directory_of_walk hrest hthere.whole⟩
    · obtain ⟨ms, hms, hlms, _⟩ := Disk.new_of_ensureDirectory hdescends hmade hl
      exact ⟨(hadds.new l hl).1, ms, hq.names_eq ▸ hms, hlms⟩
    · have hw' : w' = { w with staged := w.staged.push ⟨q, none⟩ } := eq_of_place_ok hplace
      have hsame : s'.disk.ensureDirectory (w'.root.join q) = (.ok (), s'.disk) := by
        rw [hw']
        exact Disk.ensureDirectory_of_there hagain hthere
      rw [on_createDirectory w' q s' (by rw [hw', hw]), hsame]
      exact ⟨_, _, rfl, rfl⟩

theorem createDirectory_descends_missing :
    let w := ofRoot (.ofString "r") false
    let q := Path.ofString "./a//b/"
    ∃ w' s', (w.createDirectory q).on singleDirectory = ⟨.ok (), w', s'⟩ ∧
      s'.disk.There [Utf8.encode "r"] [Utf8.encode "a", Utf8.encode "b"] ∧
      ∃ w'' s'', (w'.createDirectory q).on s' = ⟨.ok (), w'', s''⟩ ∧ s''.disk = s'.disk := by
  intro w q
  have hnames : q.names = [Utf8.encode "a", Utf8.encode "b"] := by decide +kernel
  have hdescending : q.Descending := by decide +kernel
  have hjoined : 0 ∉ (w.root.join q).bytes ∧ (w.root.join q).bytes.length < Disk.maxPath := by decide +kernel
  have hlast : q.pieces.getLast? ≠ some Path.dot := by decide +kernel
  obtain ⟨hok, hmade⟩ := createDirectory_descends w rfl singleDirectory q leadsTo_singleDirectory hdescending
    (fun _ _ _ hx => directory_of_singleDirectory hx) hjoined.1 hjoined.2
  cases h : (w.createDirectory q).on singleDirectory with
  | mk answer w' s' =>
    rw [h] at hok
    cases answer with
    | error f => cases hok.mpr (Or.inl hlast)
    | ok _ =>
      obtain ⟨_, hthere, _, hagain⟩ := hmade w' s' h
      exact ⟨w', s', rfl, hnames ▸ hthere, hagain⟩

/-- Nothing is in the way of `a/.`, and nothing is made. -/
theorem trailing_dot_refused :
    let w := ofRoot (.ofString "r") false
    let q := Path.ofString "a/."
    let tried := (w.createDirectory q).on singleDirectory
    (singleDirectory.disk.LeadsTo w.root [Utf8.encode "r"] ∧ q.Descending ∧
      singleDirectory.disk.Free [Utf8.encode "r"] q.names ∧
      0 ∉ (w.root.join q).bytes ∧ (w.root.join q).bytes.length < Disk.maxPath) ∧
    tried.answer = .error ⟨.makeDirectory, .ofString "r/a/.", .notFound⟩ ∧
      tried.session.disk.entry? [Utf8.encode "r", Utf8.encode "a"] = none := by
  intro w q tried
  have hdescending : q.Descending := by decide +kernel
  have hjoined : 0 ∉ (w.root.join q).bytes ∧ (w.root.join q).bytes.length < Disk.maxPath := by decide +kernel
  have hrefused : tried.answer = .error ⟨.makeDirectory, .ofString "r/a/.", .notFound⟩ := by
    simp only [tried, w, q]
    decide +kernel
  have hmissing : tried.session.disk.entry? [Utf8.encode "r", Utf8.encode "a"] = none := by
    simp only [tried, w, q]
    decide +kernel
  exact ⟨⟨leadsTo_singleDirectory, hdescending, fun _ _ _ hx => directory_of_singleDirectory hx, hjoined⟩, hrefused, hmissing⟩

end Workspace

end EclipseProject
