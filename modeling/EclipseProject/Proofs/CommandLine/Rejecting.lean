import EclipseProject.Proofs.CommandLine.Spelling

/-!
# What is rejected

A list of arguments that is not rejected spells words. So the lists that are rejected are those that spell no words, or
none that are admissible.
-/

namespace EclipseProject.CommandLine

variable {ws ws' : List Word} {w : Word} {a b : Arguments} {e : UsageError} {f n : String} {s : Switch}
  {x : Except Stop Arguments} {k : Arguments → Except Stop Arguments}

/-- Not rejected. -/
def Readable (x : Except Stop Arguments) : Prop := ∀ e, x ≠ .error (.usage e)

theorem readable_bind (h : Readable (x >>= k)) : Readable x ∧ ∀ b, x = .ok b → Readable (k b) := by
  refine ⟨fun e he => h e (by rw [he]; rfl), fun b hb e he => h e ?_⟩
  rw [hb]
  exact he

/-- What is refused on a condition and not rejected was not refused. -/
theorem readable_unless {p : Prop} [Decidable p] (h : Readable (if p then Arguments.fail e else x)) :
    (if p then Arguments.fail e else x) = x := by
  split
  · next hp =>
    rw [if_pos hp] at h
    exact absurd rfl (h e)
  · rfl

theorem setConfiguration_of_readable (h : Readable (a.setConfiguration f)) :
    ∃ b, a.setConfiguration f = .ok b ∧ b.pending = a.pending := by
  unfold Arguments.setConfiguration at *
  have honce := readable_unless h
  rw [honce] at h ⊢
  exact ⟨_, readable_unless h, rfl⟩

theorem settle_of_readable (h : Readable a.settle) : ∃ b, a.settle = .ok b ∧ b.pending = .nothing := by
  unfold Arguments.settle at *
  split at h
  · next hp => exact ⟨a, rfl, hp⟩
  · exact absurd rfl (h _)
  · exact setConfiguration_of_readable h

theorem pending_of_settle (h : Readable a.settle) : a.pending ≠ .value := by
  intro ha
  refine h .missingConfiguration ?_
  rw [Arguments.settle, ha]
  rfl

/-- Whatever settles first and is not rejected settles. -/
theorem settle_bind_of_readable (h : Readable (a.settle >>= k)) :
    a.pending ≠ .value ∧ ∃ b, a.settle = .ok b ∧ b.pending = .nothing ∧ Readable (k b) := by
  obtain ⟨hsettle, hk⟩ := readable_bind h
  obtain ⟨b, hb, hpending⟩ := settle_of_readable hsettle
  exact ⟨pending_of_settle hsettle, b, hb, hpending, hk b hb⟩

theorem attachConfiguration_of_readable (h : Readable (a.attachConfiguration f)) :
    a.pending ≠ .value ∧ ∃ b, a.attachConfiguration f = .ok b ∧ b.pending = .nothing := by
  obtain ⟨ha, b, hb, hpending, hset⟩ := settle_bind_of_readable h
  obtain ⟨c, hc, hsame⟩ := setConfiguration_of_readable hset
  refine ⟨ha, c, ?_, hsame.trans hpending⟩
  rw [Arguments.attachConfiguration, hb]
  exact hc

theorem awaitConfiguration_of_readable (h : Readable a.awaitConfiguration) :
    a.pending ≠ .value ∧ ∃ b, a.awaitConfiguration = .ok b ∧ b.pending = .value := by
  obtain ⟨ha, b, hb, _⟩ := settle_bind_of_readable h
  refine ⟨ha, { b with pending := .value }, ?_, rfl⟩
  rw [Arguments.awaitConfiguration, hb]
  rfl

theorem switch_of_readable (h : Readable (a.switch s)) :
    a.pending ≠ .value ∧ (s.requests = false → ∃ b, a.switch s = .ok b ∧ b.pending = .nothing) := by
  obtain ⟨ha, b, hb, hpending, hswitch⟩ := settle_bind_of_readable h
  refine ⟨ha, fun hs => ?_⟩
  rw [Arguments.switch, hb]
  cases s with
  | verbose => exact ⟨_, readable_unless hswitch, hpending⟩
  | dryRun => exact ⟨_, readable_unless hswitch, hpending⟩
  | help => cases hs
  | version => cases hs

theorem addName_of_readable (h : Readable (a.addName n)) :
    a.pending ≠ .value ∧ ∃ b, a.addName n = .ok b ∧ b.pending = .nothing := by
  unfold Arguments.addName at *
  have honce := readable_unless h
  rw [honce] at h ⊢
  obtain ⟨ha, b, hb, hpending, _⟩ := settle_bind_of_readable h
  rw [hb]
  exact ⟨ha, _, rfl, hpending⟩

/-! ## One argument -/

theorem long_of_ofLong? (h : Switch.ofLong? n = some s) : s.long = "--" ++ n := by
  unfold Switch.ofLong? at h
  split at h <;> cases h <;> rfl

theorem letter_of_ofShort? {c : Char} (h : Switch.ofShort? c = some s) : s.letter? = some c := by
  grind [Switch.ofShort?, Switch.letter?]

theorem readLong_of_readable {cs : List Char} (h : Readable (a.readLong cs)) :
    (∃ s : Switch, .ofList ('-' :: '-' :: cs) = s.long ∧ a.readLong cs = a.switch s) ∨
    (∃ f, .ofList ('-' :: '-' :: cs) = "--config=" ++ f ∧ a.readLong cs = a.attachConfiguration f) ∨
    .ofList ('-' :: '-' :: cs) = "--config" ∧ a.readLong cs = a.awaitConfiguration := by
  by_cases hvalue : '=' ∈ cs
  · obtain ⟨cs, value, rfl, hcs⟩ := List.eq_append_cons_of_mem hvalue
    rw [readLong_valued a cs value hcs] at *
    split at h
    · exact absurd rfl (h _)
    · by_cases hconfig : String.ofList cs = "config"
      · obtain rfl : cs = "config".toList := by rw [← hconfig, String.toList_ofList]
        rw [if_pos hconfig]
        exact Or.inr (Or.inl ⟨.ofList value, String.ext (by simp), rfl⟩)
      · rw [if_neg hconfig] at h
        exact absurd rfl (h _)
  · rw [readLong_bare a hvalue] at *
    split at h
    · next s hs =>
      have hlong : .ofList ('-' :: '-' :: cs) = "--" ++ String.ofList cs := String.ext (by simp)
      exact Or.inl ⟨s, hlong.trans (long_of_ofLong? hs).symm, rfl⟩
    · by_cases hconfig : String.ofList cs = "config"
      · obtain rfl : cs = "config".toList := by rw [← hconfig, String.toList_ofList]
        rw [if_pos hconfig]
        exact Or.inr (Or.inr ⟨String.ext (by simp), rfl⟩)
      · rw [if_neg hconfig] at h
        exact absurd rfl (h _)

theorem readShort_of_readable {c : Char} {cs : List Char} (h : Readable (a.readShort (c :: cs))) :
    (∃ s : Switch, s.letter? = some c ∧ a.readShort (c :: cs) = a.switch s >>= (·.readShort cs)) ∨
    c = 'c' ∧ (cs = [] ∧ a.readShort (c :: cs) = a.awaitConfiguration ∨
      (∃ file, cs = '=' :: file ∧ a.readShort (c :: cs) = a.attachConfiguration (.ofList file)) ∨
      cs ≠ [] ∧ cs.head? ≠ some '=' ∧ a.readShort (c :: cs) = a.attachConfiguration (.ofList cs)) := by
  unfold Arguments.readShort at h
  split at h
  · next hcons => cases hcons
  · next hcons =>
    cases hcons
    exact Or.inr ⟨rfl, Or.inl ⟨rfl, rfl⟩⟩
  · next file hcons =>
    cases hcons
    exact Or.inr ⟨rfl, Or.inr (Or.inl ⟨file, rfl, rfl⟩)⟩
  · next file hempty heq hcons =>
    cases hcons
    refine Or.inr ⟨rfl, Or.inr (Or.inr ⟨hempty, fun hhead => ?_, ?_⟩)⟩
    · obtain ⟨rest, hrest⟩ := List.head?_eq_some_iff.mp hhead
      exact heq rest hrest
    · rw [Arguments.readShort] <;> assumption
  · next hcons =>
    cases hcons
    split at h
    · next s hs => exact Or.inl ⟨s, letter_of_ofShort? hs, readShort_letter a (letter_of_ofShort? hs) cs⟩
    · exact absurd rfl (h _)

theorem ne_hyphen_of_readable {c : Char} {cs : List Char} (h : Readable (a.readShort (c :: cs))) : c ≠ '-' := by
  obtain ⟨s, hc, _⟩ | ⟨rfl, _⟩ := readShort_of_readable h
  · exact ne_hyphen_of_letter hc
  · decide

theorem pending_of_names {ns : List String} (h : Readable (ns.foldlM Arguments.addName a >>= Arguments.settle)) :
    a.pending ≠ .value := by
  cases ns with
  | nil => exact pending_of_settle h
  | cons n ns => exact (addName_of_readable (readable_bind (readable_bind h).1).1).1

/-! ## All arguments -/

/-- The arguments are spelt, behind the value that is awaited if one is. -/
def SpeltAfter (a : Arguments) (arguments : List String) : Prop :=
  (a.pending ≠ .value → ∃ ws, Spells arguments ws) ∧
    (a.pending = .value → ∃ f more ws, arguments = f :: more ∧ Plain f ∧ Spells more ws)

section
variable {more : List String} (hmore : ∀ b : Arguments, Readable (b.read more) → SpeltAfter b more)
include hmore

theorem spelt_after_ok (h : Readable (x >>= (·.read more))) (hb : x = .ok b) (hpending : b.pending = .nothing) :
    ∃ ws, Spells more ws := by
  refine (hmore b ((readable_bind h).2 b hb)).1 ?_
  rw [hpending]
  exact Pending.noConfusion

theorem spelt_after_file (h : Readable (a.attachConfiguration f >>= (·.read more))) :
    a.pending ≠ .value ∧ ∃ ws, Spells more ws := by
  obtain ⟨ha, b, hb, hpending⟩ := attachConfiguration_of_readable (readable_bind h).1
  exact ⟨ha, spelt_after_ok hmore h hb hpending⟩

theorem spelt_after_switch (h : Readable (a.switch s >>= (·.read more))) :
    a.pending ≠ .value ∧ (s.requests = false → ∃ ws, Spells more ws) := by
  obtain ⟨ha, hswitch⟩ := switch_of_readable (readable_bind h).1
  refine ⟨ha, fun hs => ?_⟩
  obtain ⟨b, hb, hpending⟩ := hswitch hs
  exact spelt_after_ok hmore h hb hpending

theorem spelt_awaiting (h : Readable (a.awaitConfiguration >>= (·.read more))) :
    a.pending ≠ .value ∧ ∃ f rest ws, more = f :: rest ∧ Plain f ∧ Spells rest ws := by
  obtain ⟨ha, b, hb, hpending⟩ := awaitConfiguration_of_readable (readable_bind h).1
  exact ⟨ha, (hmore b ((readable_bind h).2 b hb)).2 hpending⟩

theorem spelt_long {cs : List Char} (h : Readable (a.readLong cs >>= (·.read more))) :
    a.pending ≠ .value ∧ ∃ ws, Spells (.ofList ('-' :: '-' :: cs) :: more) ws := by
  obtain ⟨s, hlong, hread⟩ | ⟨f, hattached, hread⟩ | ⟨hbehind, hread⟩ := readLong_of_readable (readable_bind h).1
  · rw [hread] at h
    rw [hlong]
    obtain ⟨ha, hws⟩ := spelt_after_switch hmore h
    refine ⟨ha, ?_⟩
    cases hs : s.requests with
    | true => exact ⟨_, .longRequest more hs⟩
    | false =>
      obtain ⟨ws, hws⟩ := hws hs
      exact ⟨_, .long hs hws⟩
  · rw [hread] at h
    rw [hattached]
    obtain ⟨ha, ws, hws⟩ := spelt_after_file hmore h
    exact ⟨ha, _, .attached (by simp) hws⟩
  · rw [hread] at h
    rw [hbehind]
    obtain ⟨ha, f, rest, ws, rfl, hf, hws⟩ := spelt_awaiting hmore h
    exact ⟨ha, _, .behind (by simp) hf hws⟩

theorem spelt_file {cs : List Char} (h : Readable (a.readShort ('c' :: cs) >>= (·.read more))) :
    a.pending ≠ .value ∧ ∃ ws, Spells (.ofList ('-' :: 'c' :: cs) :: more) ws := by
  obtain ⟨s, hs, _⟩ | ⟨_, ⟨rfl, hread⟩ | ⟨file, rfl, hread⟩ | ⟨hempty, heq, hread⟩⟩ :=
    readShort_of_readable (readable_bind h).1
  · cases s <;> cases hs
  · rw [hread] at h
    obtain ⟨ha, f, rest, ws, rfl, hf, hws⟩ := spelt_awaiting hmore h
    exact ⟨ha, _, .behind (by simp) hf hws⟩
  · rw [hread] at h
    obtain ⟨ha, ws, hws⟩ := spelt_after_file hmore h
    have hspelt : .ofList ('-' :: 'c' :: '=' :: file) = "-c=" ++ String.ofList file := String.ext (by simp)
    rw [hspelt]
    exact ⟨ha, _, .attached (by simp) hws⟩
  · rw [hread] at h
    obtain ⟨ha, ws, hws⟩ := spelt_after_file hmore h
    have hspelt : .ofList ('-' :: 'c' :: cs) = "-c" ++ String.ofList cs := String.ext (by simp)
    rw [hspelt]
    exact ⟨ha, _, .adjoined (by simpa using hempty) (by simpa using heq) hws⟩

/-- The first letter behind a hyphen is a request, or it brings the path of a file, or the letters behind it are read. -/
theorem spelt_letter {c : Char} {cs : List Char} (h : Readable (a.readShort (c :: cs) >>= (·.read more)))
    (hrest : ∀ (s : Switch) (b : Arguments), s.letter? = some c → s.requests = false → b.pending = .nothing →
      Readable (b.readShort cs >>= (·.read more)) → ∃ ws, Spells (.ofList ('-' :: c :: cs) :: more) ws) :
    a.pending ≠ .value ∧ ∃ ws, Spells (.ofList ('-' :: c :: cs) :: more) ws := by
  obtain ⟨s, hc, hread⟩ | ⟨rfl, _⟩ := readShort_of_readable (readable_bind h).1
  · rw [hread, bind_assoc] at h
    obtain ⟨ha, hswitch⟩ := switch_of_readable (readable_bind h).1
    refine ⟨ha, ?_⟩
    cases hs : s.requests with
    | true => exact ⟨_, .letterRequest cs more hc hs⟩
    | false =>
      obtain ⟨b, hb, hpending⟩ := hswitch hs
      exact hrest s b hc hs hpending ((readable_bind h).2 b hb)
  · exact spelt_file hmore h

theorem spelt_short {c : Char} {cs : List Char} (h : Readable (a.readShort (c :: cs) >>= (·.read more))) :
    a.pending ≠ .value ∧ ∃ ws, Spells (.ofList ('-' :: c :: cs) :: more) ws := by
  induction cs generalizing a c with
  | nil =>
    refine spelt_letter hmore h fun s b hc hs hpending hb => ?_
    obtain ⟨ws, hws⟩ := (hmore b hb).1 (hpending ▸ Pending.noConfusion)
    exact ⟨_, .letter hc hs hws⟩
  | cons y cs ih =>
    refine spelt_letter hmore h fun s b hc hs _ hb => ?_
    obtain ⟨_, ws, hws⟩ := ih hb
    exact ⟨_, .letters hc hs (ne_hyphen_of_readable (readable_bind hb).1) hws⟩

end

theorem plain_of_not_option {argument : String} (h : ∀ c cs, argument.toList ≠ '-' :: c :: cs) : Plain argument := by
  cases hcs : argument.toList with
  | nil => exact Or.inr (by simp [hcs])
  | cons c cs =>
    by_cases hc : c = '-'
    · subst hc
      cases cs with
      | nil => exact Or.inl (String.toList_injective hcs)
      | cons d cs => exact absurd hcs (h d cs)
    · exact Or.inr (by simp [hcs, hc])

theorem spelt_of_readable {arguments : List String} (h : Readable (a.read arguments)) : SpeltAfter a arguments := by
  induction arguments generalizing a with
  | nil => exact ⟨fun _ => ⟨_, .nil⟩, fun ha => absurd ha (pending_of_settle h)⟩
  | cons argument more ih =>
    have hoption : a.pending ≠ .value ∧ (∃ ws, Spells (argument :: more) ws) → SpeltAfter a (argument :: more) :=
      fun hspelt => ⟨fun _ => hspelt.2, fun ha => absurd ha hspelt.1⟩
    rw [Arguments.read] at h
    split at h
    · next hcs =>
      obtain rfl : argument = "--" := String.toList_injective hcs
      exact hoption ⟨pending_of_names h, _, .names more⟩
    · next cs hne hcs =>
      obtain rfl := String.toList_injective (hcs.trans String.toList_ofList.symm)
      exact hoption (spelt_long (fun b => ih) h)
    · next c cs hne hne' hcs =>
      obtain rfl := String.toList_injective (hcs.trans String.toList_ofList.symm)
      exact hoption (spelt_short (fun b => ih) h)
    · next hoptions =>
      have hplain : Plain argument := plain_of_not_option hoptions
      unfold Arguments.readPlain at h
      by_cases ha : a.pending = .value
      · rw [if_pos ha] at h
        obtain ⟨ws, hws⟩ := (ih h).1 Pending.noConfusion
        exact ⟨fun hne => absurd ha hne, fun _ => ⟨_, _, _, rfl, hplain, hws⟩⟩
      · rw [if_neg ha] at h
        obtain ⟨_, b, hb, hpending⟩ := addName_of_readable (readable_bind h).1
        obtain ⟨ws, hws⟩ := spelt_after_ok (fun b => ih) h hb hpending
        exact hoption ⟨ha, _, .name hplain hws⟩

theorem spells_of_parse {arguments : List String} (h : Readable (Arguments.parse arguments)) :
    ∃ ws, Spells arguments ws :=
  (spelt_of_readable h).1 Pending.noConfusion

/-- **What admissible words come to.** Requests are answered, and everything else is taken as given. -/
theorem parse_spelt {arguments : List String} (hs : Spells arguments ws) (hadmissible : Admissible ws) :
    Arguments.parse arguments =
      if .switch .help ∈ ws then .error .help
      else if .switch .version ∈ ws then .error .version
      else .ok (.ofWords ws) := by
  have hcomes := hs.comes
  generalize Arguments.parse arguments = x at hcomes
  cases x with
  | ok a =>
    obtain ⟨_, hreads, rfl⟩ := hcomes
    have hhelp : .switch .help ∉ ws := fun hmem => nomatch hreads _ hmem
    have hversion : .switch .version ∉ ws := fun hmem => nomatch hreads _ hmem
    rw [if_neg hhelp, if_neg hversion]
  | error stop =>
    cases stop with
    | help => rw [if_pos hcomes.2.1]
    | version => rw [if_neg hcomes.2.2, if_pos hcomes.2.1]
    | usage e => exact absurd hadmissible hcomes

example : Arguments.parse ["-vc", "f.toml", "--dry-run", "--", "--name"] =
    .ok ⟨true, true, some "f.toml", some "--name", .nothing⟩ := rfl

/-- **What is rejected.** A list that spells no admissible words, and no other. -/
theorem parse_usage_iff {arguments : List String} : (∃ e, Arguments.parse arguments = .error (.usage e)) ↔
    ∀ ws, Spells arguments ws → ¬Admissible ws := by
  constructor
  · rintro ⟨e, he⟩ ws hws
    have hcomes := hws.comes
    rwa [he] at hcomes
  · intro h
    by_contra hnot
    obtain ⟨ws, hws⟩ := spells_of_parse fun e he => hnot ⟨e, he⟩
    have hcomes := hws.comes
    generalize Arguments.parse arguments = x at hcomes hnot
    cases x with
    | ok a => exact h ws hws hcomes.1
    | error stop =>
      cases stop with
      | help => exact h ws hws hcomes.1
      | version => exact h ws hws hcomes.1
      | usage e => exact hnot ⟨e, rfl⟩

end EclipseProject.CommandLine
