import EclipseProject.Proofs.Disk.Adding
import EclipseProject.Proofs.Path.Sameness
import EclipseProject.Proofs.Workspace.Below
import EclipseProject.Proofs.Workspace.Preview

/-!
# Looking up what was written

A record only grows and is looked through from its beginning, so what is found for a path is what was written there first.
The disk holds what was written there last. So the two agree exactly if the first writing and the last are of one content.
-/

namespace EclipseProject

theorem Path.Normal.plain {q : Path} (hq : q.Normal) : ∀ n ∈ q.names, Path.Plain n := by
  intro n hn
  rw [hq.names_eq] at hn
  obtain ⟨hpiece, hdot⟩ := List.mem_filter.mp hn
  exact ⟨of_decide_eq_true hdot, fun e => hq.dotDot_notMem (e ▸ hpiece)⟩

namespace Disk

variable {d e : Disk} {l r : Location} {root q : Path} {x : Entry} {bytes : List UInt8} {executable : Bool}

/-! ## Where a path of names leads -/

theorem walk_names (hq : q.Normal) (hw : d.walk l q.pieces = .ok r) : r = l ++ q.names := by
  have hdown := walk_filter_dot hw
  rw [← hq.names_eq] at hdown
  exact eq_append_of_walk hq.plain hdown

theorem walk_join_ok_iff (hq : q.Normal) : d.walk (d.start (root.join q)) (root.join q).pieces = .ok l ↔
    ∃ r, d.walk (d.start root) root.pieces = .ok r ∧ d.walk r q.pieces = .ok l := by
  rw [start_join hq.relative, Path.pieces_join hq.relative, walk_append_ok_iff]

theorem exists_root_of_find? (hq : q.Normal) (hx : d.find? (root.join q) = some x) :
    ∃ r, d.walk (d.start root) root.pieces = .ok r ∧ d.entry? (r ++ q.names) = some x := by
  obtain ⟨l, hl, hx⟩ := find?_eq_some_iff.mp hx
  obtain ⟨_, hw, _⟩ := resolve_ok_iff.mp hl
  obtain ⟨r, hr, hw⟩ := (walk_join_ok_iff hq).mp hw
  rw [walk_names hq hw] at hx
  exact ⟨r, hr, hx⟩

theorem readFile_of_find? (h : d.find? q = some (.file bytes executable)) : d.readFile q = .ok bytes := by
  obtain ⟨l, hl, hx⟩ := find?_eq_some_iff.mp h
  simp [readFile, hl, hx, bind, Except.bind, pure, Except.pure]

theorem put_of_writeFile (hq : q.Normal) (h : d.writeFile (root.join q) bytes = .ok e) :
    ∃ r executable, e.walk (e.start root) root.pieces = .ok r ∧ r ++ q.names ≠ [] ∧
      e = d.put (r ++ q.names) (.file bytes executable) := by
  obtain ⟨l, executable, hl, _, hne, he⟩ := location_of_writeFile h
  obtain ⟨r, hr, hw⟩ := (walk_join_ok_iff hq).mp (resolve_ok_iff.mp hl).2.1
  rw [walk_names hq hw] at hne he
  exact ⟨r, executable, hr, hne, he⟩

theorem walk_unique_of_extends (h : Extends d e) (hr : ∀ k, e.walk (e.start root) root.pieces = .ok k → k = r) :
    ∀ k, d.walk (d.start root) root.pieces = .ok k → k = r := by
  intro k hk
  refine hr k ?_
  rw [start_of_extends h]
  exact walk_of_extends h hk

/-! ## What one call leaves of a content -/

def Holds (d : Disk) (l : Location) (content : String) : Prop :=
  ∃ executable, d.entry? l = some (.file (Utf8.encode content) executable)

section
variable {ns : List Name} {c : String} {content : Option String} {outcome : Except SystemError Unit}
variable (hq : q.Normal) (hr : ∀ k, e.walk (e.start root) root.pieces = .ok k → k = r)
include hq hr

theorem holds_of_place (h : d.place (root.join q) (some c) = (.ok (), e)) : e.Holds (r ++ q.names) c := by
  obtain ⟨k, executable, hk, hne, he⟩ := put_of_writeFile hq (place_file_ok_iff.mp h)
  rw [hr k hk] at hne he
  refine ⟨executable, ?_⟩
  rw [he, entry?_put d hne, if_pos rfl]

/-- A content stays unless another is written down the same names. -/
theorem Holds.of_place (hc : d.Holds (r ++ ns) c) (h : d.place (root.join q) content = (outcome, e))
    (hother : outcome = .ok () → content ≠ none → q.names ≠ ns) : e.Holds (r ++ ns) c := by
  obtain ⟨executable, hx⟩ := hc
  cases content with
  | none => exact ⟨executable, (adds_ensureLineage h).stays hx⟩
  | some contents =>
    cases outcome with
    | error cause => exact ⟨executable, eq_of_place_file_error h ▸ hx⟩
    | ok u =>
      obtain ⟨k, executable', hk, hne, he⟩ := put_of_writeFile hq (place_file_ok_iff.mp h)
      rw [hr k hk] at hne he
      have hplace : r ++ ns ≠ r ++ q.names := fun e => hother rfl (by simp) (List.append_cancel_left e).symm
      refine ⟨executable, ?_⟩
      rw [he, entry?_put d hne, if_neg hplace]
      exact hx

end

end Disk

namespace Workspace

variable {w w' : Workspace} {s s' : Session} {e : Staging.Entry} {es : List Staging.Entry} {r : Location}
  {ns : List Name} {c : String}

/-- After all calls the content is there that was written last, or the old one if none was. -/
theorem holds_placeEach (hw : w.dryRun = false) (hn : ∀ e ∈ es, e.destination.Normal)
    (hr : ∀ k, (w.placeEach s es).session.disk.walk ((w.placeEach s es).session.disk.start w.root) w.root.pieces = .ok k →
      k = r)
    (h : (∃ e, ((w.placeEach s es).succeeded.filter (·.destination.names = ns)).getLast? = some e ∧ e.content = some c) ∨
      (w.placeEach s es).succeeded.filter (·.destination.names = ns) = [] ∧ s.disk.Holds (r ++ ns) c) :
    (w.placeEach s es).session.disk.Holds (r ++ ns) c := by
  induction w, s, es using placing_induction with
  | nil w s =>
    obtain ⟨e, he, _⟩ | ⟨_, hc⟩ := h
    · cases he
    · exact hc
  | ok w s e es w' s' hplace ih =>
    obtain ⟨hw', hroot⟩ := fixed_of_place hplace
    obtain ⟨hq, hes⟩ := List.forall_mem_cons.mp hn
    have hdisk := disk_of_place_ok hw hplace
    have hext := (keeps_placeEach (s := s') (hw'.trans hw) es).extending
    rw [placeEach_cons_ok hplace] at hr h ⊢
    have hroots := Disk.walk_unique_of_extends hext hr
    rw [Usage.succeeded_after_ok] at h
    refine ih (hw'.trans hw) hes (hroot ▸ hr) ?_
    by_cases hnames : e.destination.names = ns
    · rw [List.filter_cons_of_pos (by simpa using hnames)] at h
      obtain ⟨last, hlast, hc⟩ | ⟨hnil, _⟩ := h
      · by_cases hrest : (w'.placeEach s' es).succeeded.filter (·.destination.names = ns) = []
        · rw [hrest, List.getLast?_singleton] at hlast
          cases hlast
          rw [hc] at hdisk
          exact Or.inr ⟨hrest, hnames ▸ Disk.holds_of_place hq hroots hdisk⟩
        · rw [List.getLast?_cons_of_ne_nil hrest] at hlast
          exact Or.inl ⟨last, hlast, hc⟩
      · cases hnil
    · rw [List.filter_cons_of_neg (by simpa using hnames)] at h
      refine h.imp_right (And.imp_right fun hc => ?_)
      exact hc.of_place hq hroots hdisk fun _ _ => hnames
  | error w s e es f s' hplace ih =>
    obtain ⟨hq, hes⟩ := List.forall_mem_cons.mp hn
    obtain ⟨cause, hdisk⟩ := disk_of_place_error hw hplace
    have hext := (keeps_placeEach (s := s') hw es).extending
    rw [placeEach_cons_error hplace] at hr h ⊢
    rw [Usage.succeeded_after_error] at h
    have hroots := Disk.walk_unique_of_extends hext hr
    refine ih hw hes hr (h.imp_right (And.imp_right fun hc => ?_))
    exact hc.of_place hq hroots hdisk fun hok => by cases hok

/-! ## What is found in the record -/

theorem bytes_ne_nil_of_succeeded (hw : w.dryRun = false) {p : Path} {contents : String}
    (h : ⟨p, some contents⟩ ∈ (w.placeEach s es).succeeded) : (w.root.join p).bytes ≠ [] := by
  induction w, s, es using placing_induction with
  | nil w s => cases h
  | ok w s e es w' s' hplace ih =>
    obtain ⟨hw', hroot⟩ := fixed_of_place hplace
    rw [placeEach_cons_ok hplace, Usage.succeeded_after_ok] at h
    obtain rfl | h := List.mem_cons.mp h
    · obtain ⟨l, k, n, hparent, _⟩ := Disk.aims_of_place (disk_of_place_ok hw hplace)
      exact (Disk.accept_ok_iff.mp (Disk.resolveParent_ok_iff.mp hparent).1).2.1
    · exact hroot ▸ ih (hw'.trans hw) h
  | error w s e es f s' hplace ih =>
    rw [placeEach_cons_error hplace, Usage.succeeded_after_error] at h
    exact ih hw h

theorem isNone_eq_of_same {d : Disk} {f : Staging.Entry} (h : w.Stands d) (he : e ∈ w.staged.entries)
    (hf : f ∈ w.staged.entries) (hne : e.destination.Normal) (hnf : f.destination.Normal)
    (hsame : f.destination.same e.destination = true) (hbytes : (w.root.join e.destination).bytes ≠ []) :
    f.content.isNone = e.content.isNone := by
  have hnames := (Path.same_iff_of_normal hnf hne).mp hsame
  have hbytes' : (w.root.join f.destination).bytes ≠ [] := by
    intro hnil
    obtain ⟨hroot, hf⟩ := (Path.bytes_join_eq_nil_iff hnf.relative).mp hnil
    refine hbytes ((Path.bytes_join_eq_nil_iff hne.relative).mpr ⟨hroot, ?_⟩)
    by_contra he
    exact hnf.bytes_ne_nil (hnames ▸ hne.names_ne_nil (Path.components_ne_nil he)) hf
  obtain ⟨x, hx, hkind⟩ := h e he hbytes
  obtain ⟨y, hy, hkind'⟩ := h f hf hbytes'
  obtain ⟨r, hr, hx⟩ := Disk.exists_root_of_find? hne hx
  obtain ⟨r', hr', hy⟩ := Disk.exists_root_of_find? hnf hy
  cases hr.symm.trans hr'
  rw [hnames, hx] at hy
  cases hy
  exact hkind'.symm.trans hkind

section
variable {root p : Path} {contents : String} (hn : ∀ e ∈ es, e.destination.Normal)
  (hp : ⟨p, some contents⟩ ∈ ((ofRoot root false).placeEach s es).succeeded)

include hn in
theorem normal_of_succeeded (he : e ∈ (w.placeEach s es).succeeded) : e.destination.Normal := by
  rw [Usage.mem_succeeded] at he
  exact hn e (entries_placeEach es w s ▸ List.mem_map_of_mem he)

theorem stands_ofRoot (root : Path) (s : Session) (es : List Staging.Entry) :
    Stands ⟨root, false, ⟨((ofRoot root false).placeEach s es).succeeded⟩⟩
      ((ofRoot root false).placeEach s es).session.disk := by
  rw [← workspace_placeEach_ofRoot]
  exact stands_placeEach es rfl fun e he => by cases he

include hn hp

/-- What was written to once is a file, so all that was placed there is. -/
theorem exists_content_of_same (he : e ∈ ((ofRoot root false).placeEach s es).succeeded)
    (hsame : e.destination.same p = true) : ∃ c, e.content = some c := by
  have hbytes : (root.join p).bytes ≠ [] := bytes_ne_nil_of_succeeded rfl hp
  have hkind := isNone_eq_of_same (e := ⟨p, some contents⟩) (stands_ofRoot root s es) hp he (normal_of_succeeded hn hp)
    (normal_of_succeeded hn he) hsame hbytes
  cases hc : e.content with
  | none => simp [hc] at hkind
  | some c => exact ⟨c, rfl⟩

theorem readFile_of_getLast? (hc : e.content = some c)
    (hlast : (((ofRoot root false).placeEach s es).succeeded.filter (·.destination.same p)).getLast? = some e) :
    ((ofRoot root false).placeEach s es).session.disk.readFile (root.join p) = .ok (Utf8.encode c) := by
  have hnormal := normal_of_succeeded hn hp
  have hnames : ((ofRoot root false).placeEach s es).succeeded.filter (·.destination.same p) =
      ((ofRoot root false).placeEach s es).succeeded.filter (·.destination.names = p.names) := by
    refine List.filter_congr fun e he => ?_
    rw [Bool.eq_iff_iff, Path.same_iff_of_normal (normal_of_succeeded hn he) hnormal, decide_eq_true_eq]
  have hbytes : (root.join p).bytes ≠ [] := bytes_ne_nil_of_succeeded rfl hp
  obtain ⟨x, hx, _⟩ := stands_ofRoot root s es ⟨p, some contents⟩ hp hbytes
  obtain ⟨r, hr, hentry⟩ := Disk.exists_root_of_find? hnormal hx
  have hunique : ∀ k, Disk.walk _ (Disk.start _ root) root.pieces = .ok k → k = r := fun k hk =>
    Except.ok.inj (hk.symm.trans hr)
  obtain ⟨executable, hholds⟩ := holds_placeEach rfl hn hunique (Or.inl ⟨e, hnames ▸ hlast, hc⟩)
  cases hentry.symm.trans hholds
  exact Disk.readFile_of_find? hx

end

/-- **What is found is what was written first.** After calls with paths of names, some of which may have failed, a path
that a file was written to is found in the record as the first file written there, under any spelling, and the disk holds
the content that was written there last. So the record tells what is on the disk exactly if these are the same. -/
theorem lookup_finds_first (root : Path) (s : Session) (es : List Staging.Entry)
    (hn : ∀ e ∈ es, e.destination.Normal) :
    let used := (ofRoot root false).placeEach s es
    ∀ p contents, (⟨p, some contents⟩, .ok ()) ∈ used.answers →
      let writes := used.succeeded.filter (·.destination.same p)
      ∃ (first last : Path) (c c' : String), writes.head? = some ⟨first, some c⟩ ∧
        writes.getLast? = some ⟨last, some c'⟩ ∧ used.workspace.staged.get? p = some ⟨first, some c⟩ ∧
        used.session.disk.readFile (root.join p) = .ok (Utf8.encode c') ∧
        (used.session.disk.readFile (root.join p) = .ok (Utf8.encode c) ↔ c = c') := by
  intro used p contents hanswer writes
  have hp : ⟨p, some contents⟩ ∈ used.succeeded := Usage.mem_succeeded.mpr hanswer
  have hfiles : ∀ e ∈ writes, ∃ c, e.content = some c := fun e he =>
    exists_content_of_same hn hp (List.mem_filter.mp he).1 (List.mem_filter.mp he).2
  have hsome : writes ≠ [] :=
    List.ne_nil_of_mem (List.mem_filter.mpr ⟨hp, Path.same_eq_true_iff.mpr rfl⟩)
  obtain ⟨⟨first, content⟩, hhead⟩ := Option.ne_none_iff_exists'.mp (mt List.head?_eq_none_iff.mp hsome)
  obtain ⟨⟨last, content'⟩, hlast⟩ := Option.ne_none_iff_exists'.mp (mt List.getLast?_eq_none_iff.mp hsome)
  obtain ⟨c, rfl⟩ := hfiles _ (List.mem_of_head? hhead)
  obtain ⟨c', rfl⟩ := hfiles _ (List.mem_of_getLast? hlast)
  have hread := readFile_of_getLast? hn hp rfl hlast
  have hget : used.workspace.staged.get? p = writes.head? := by
    rw [Staging.Record.get?, workspace_placeEach_ofRoot, List.head?_filter]
  refine ⟨first, last, c, c', hhead, hlast, hget.trans hhead, hread, ?_⟩
  rw [hread, Except.ok.injEq]
  exact ⟨fun h => (Utf8.encode_injective h).symm, fun h => by rw [h]⟩

/-- The first writing fails, and the last spells the path in another way. -/
theorem lookup_finds_first_respelt :
    let file := Staging.Entry.mk (.ofString "a/b") (some "1")
    let directory := Staging.Entry.mk (.ofString "a") none
    let again := Staging.Entry.mk (.ofString "a//./b") (some "2")
    let calls := [file, directory, file, again]
    let used := (ofRoot (.ofString "/") false).placeEach (.ofDisk .empty) calls
    used.succeeded = [directory, file, again] ∧
      used.workspace.staged.get? again.destination = some file ∧
      used.session.disk.readFile ((Path.ofString "/").join again.destination) = .ok (Utf8.encode "2") := by
  intro file directory again calls used
  have hnormal : ∀ e ∈ calls, e.destination.Normal := by
    simp only [calls, file, directory, again]
    decide +kernel
  have hanswer : (again, .ok ()) ∈ used.answers := by
    simp only [used, calls, file, directory, again]
    decide +kernel
  have hsucceeded : used.succeeded = [directory, file, again] := by
    simp only [used, calls, file, directory, again]
    decide +kernel
  have hwrites : used.succeeded.filter (·.destination.same again.destination) = [file, again] := by
    rw [hsucceeded]
    simp only [file, directory, again]
    decide +kernel
  obtain ⟨first, last, c, c', hhead, hend, hget, hread, _⟩ :=
    lookup_finds_first (.ofString "/") (.ofDisk .empty) calls hnormal _ _ hanswer
  rw [hwrites] at hhead hend
  have hlast : again = ⟨last, some c'⟩ := Option.some.inj hend
  have hcontent : "2" = c' := Option.some.inj (congrArg Staging.Entry.content hlast)
  exact ⟨hsucceeded, hget.trans hhead.symm, hcontent ▸ hread⟩

/-- A file written twice is found with the content that is on the disk no more. -/
theorem lookup_finds_outdated :
    let file := Path.ofString "a"
    let calls := [Staging.Entry.mk file (some "1"), Staging.Entry.mk file (some "2")]
    let used := (ofRoot (.ofString "r") false).placeEach (.ofDisk (Disk.empty.put [Utf8.encode "r"] .directory)) calls
    file.Normal ∧ used.succeeded = calls ∧ used.workspace.staged.get? file = some ⟨file, some "1"⟩ ∧
      used.session.disk.readFile ((Path.ofString "r").join file) = .ok (Utf8.encode "2") ∧
      Utf8.encode "1" ≠ Utf8.encode "2" := by
  decide +kernel

end Workspace

end EclipseProject
