import EclipseProject.Proofs.Config.Offences

/-!
# What is reported of an offence

The text of a report tells the offence: the key that is not known, or what was found and what was expected. So two
reports with one text are of one offence, and the first thing that does not fit in a table is named.
-/

namespace EclipseProject.Config

variable {t : List (String × Toml.Value)} {before : List Visit} {x : Visit} {o : Offence}

/-! ## Texts of offences -/

theorem Expected.eq_of_phrases {e e' : Expected} {s s' : String} (h : s ++ e.phrase = s' ++ e'.phrase) : e = e' := by
  have hlast := congrArg (·.toList.getLast?) h
  cases e <;> cases e' <;> first | rfl | simp [Expected.phrase] at hlast

/-- The keys that are known, as they are offered in the place of one that is not. -/
def offered : String := ", ".intercalate (fieldNames.map fun f => "`" ++ f ++ "`")

theorem message_unknownField (key : String) :
    (Offence.unknownField key).message = "unknown field `" ++ key ++ ("`, expected one of " ++ offered) :=
  String.append_assoc

theorem message_wrongType (found : String) (expected : Expected) :
    (Offence.wrongType found expected).message = "invalid type: " ++ found ++ (", expected " ++ expected.phrase) :=
  String.append_assoc

theorem message_ne {key found : String} {expected : Expected} :
    (Offence.unknownField key).message ≠ (Offence.wrongType found expected).message := by
  rw [message_unknownField, message_wrongType]
  intro h
  have hhead := congrArg (·.toList.head?) h
  simp at hhead

theorem Offence.message_injective {o o' : Offence} (h : o.message = o'.message) : o = o' := by
  cases o with
  | unknownField key =>
    cases o' with
    | unknownField key' =>
      rw [message_unknownField, message_unknownField, String.append_left_inj, String.append_right_inj] at h
      rw [h]
    | wrongType found expected => exact absurd h message_ne
  | wrongType found expected =>
    cases o' with
    | unknownField key' => exact absurd h.symm message_ne
    | wrongType found' expected' =>
      obtain rfl := Expected.eq_of_phrases h
      rw [message_wrongType, message_wrongType, String.append_left_inj, String.append_right_inj] at h
      rw [h]

/-! ## What a text mentions -/

def Mentions (text part : String) : Prop := part.toList <:+: text.toList

theorem mentions_append (before part after : String) : Mentions (before ++ part ++ after) part :=
  ⟨before.toList, after.toList, by simp⟩

theorem Mentions.append {text part : String} (h : Mentions text part) (before : String) :
    Mentions (before ++ text) part := by
  rw [Mentions, String.toList_append]
  exact h.trans (List.suffix_append ..).isInfix

theorem mentions_offered {f : String} (hf : f ∈ fieldNames) : Mentions offered ("`" ++ f ++ "`") := by
  have hall : ∀ f ∈ fieldNames, ("`" ++ f ++ "`").toList <:+: offered.toList := by decide +kernel
  exact hall f hf

/-- What was met is named: a key with the keys there are, a value with what it is and what was expected. -/
def Visit.NamedIn (text : String) : Visit → Prop
  | .key name => Mentions text ("`" ++ name ++ "`") ∧ ∀ f ∈ fieldNames, Mentions text ("`" ++ f ++ "`")
  | .value expected found => Mentions text (describe found) ∧ Mentions text expected.phrase

theorem namedIn_message (h : x.offence? = some o) : x.NamedIn o.message := by
  cases x with
  | key name =>
    obtain ⟨_, rfl⟩ : name ∉ fieldNames ∧ .unknownField name = o := by simpa [Visit.offence?] using h
    have hquoted : (Offence.unknownField name).message =
        "unknown field " ++ ("`" ++ name ++ "`") ++ (", expected one of " ++ offered) := by
      rw [message_unknownField]
      exact String.ext (by simp)
    rw [hquoted]
    exact ⟨mentions_append .., fun f hf => ((mentions_offered hf).append _).append _⟩
  | value expected found =>
    obtain ⟨_, rfl⟩ : expected.fits found = false ∧ .wrongType (describe found) expected = o := by
      simpa [Visit.offence?] using h
    rw [message_wrongType]
    refine ⟨mentions_append .., Mentions.append (Mentions.append ?_ _) _⟩
    exact List.infix_rfl

/-- **The first offence is named.** The report mentions the file and what was met first and did not fit, and its text is
that of no other offence. -/
theorem report_names_first {d : Disk} {path : Path} {content : String} (h : d.readFile path = .ok (Utf8.encode content))
    (ht : Toml.parse content = some t) (hfirst : FirstAt t before x o) :
    ∃ e text, ofFile d path = .error e ∧ Mentions e.diagnostic.message path.display ∧ e.diagnostic.source = some text ∧
      x.NamedIn text ∧ ∀ o' : Offence, o'.message = text → o' = o := by
  have hrefused : ofTable t = .error o := ofTable_eq_error_iff.mpr ⟨before, x, hfirst⟩
  refine ⟨.misshapen path o, o.message, ?_, ?_, rfl, namedIn_message hfirst.offends, fun _ => Offence.message_injective⟩
  · rw [ofFile_eq_ofText h, ofText, ht]
    simp [hrefused]
  · exact mentions_append "Parsing error: toml on '" _ "'"

end EclipseProject.Config
