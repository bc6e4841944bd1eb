import Motif.Command.Load
import Motif.Proofs.SettingsTexts
import Motif.Proofs.Yields

/-!
# Settings from a file and from options

The settings of a run come from three places: the standard ones, a file, and the options. The file goes over the
standard settings and the options go over what the file gives, in both cases with `Stated.over`, so a setting that an
option states is taken from there, and each of the others from where it was (`loadSettings_eq_ok_iff`).
-/

namespace Motif.Command

open Settings (Stated)

/-- The settings that the options state. -/
def Options.stated (o : Options) : Stated := ⟨o.workers, o.reuse, o.method⟩

/-- The settings that the options go over: the standard ones, or those in the file that is named. -/
inductive Configured (disk : Disk) : Option String → Settings → Prop where
  | standard : Configured disk none .standard
  | file {name : String} {text : List Char} {s : Settings} (hdisk : disk name = .ok text)
      (hread : Settings.ofJson text = .ok s) : Configured disk (some name) s

variable {disk : Disk} {o : Options} {s : Settings} {g g' : Given} {arg name value : String} {args : List String}

/-! ### Settings under options -/

theorem override_eq (o : Options) (s : Settings) : override o s = o.stated.over s := by
  obtain ⟨_, _, _, workers, reuse, method, _, _, _⟩ := o
  cases workers <;> cases reuse <;> cases method <;> rfl

theorem configured_some_iff :
    Configured disk (some name) s ↔ ∃ text, disk name = .ok text ∧ Settings.ofJson text = .ok s := by
  constructor
  · rintro (_ | ⟨hdisk, hread⟩)
    exact ⟨_, hdisk, hread⟩
  · rintro ⟨text, hdisk, hread⟩
    exact .file hdisk hread

theorem loadSettings_eq_ok_iff :
    loadSettings disk o = .ok s ↔ ∃ base, Configured disk o.config base ∧ o.stated.over base = s := by
  rw [loadSettings]
  cases o.config with
  | none =>
    refine ⟨fun h => ⟨.standard, .standard, ?_⟩, ?_⟩
    · rw [← override_eq]
      exact Except.ok.inj h
    · rintro ⟨_, ⟨⟩, rfl⟩
      rw [← override_eq]
      rfl
  | some name =>
    constructor
    · intro h
      obtain ⟨text, htext, h⟩ := bind_eq_ok.mp h
      obtain ⟨base, hbase, h⟩ := bind_eq_ok.mp h
      refine ⟨base, configured_some_iff.mpr ⟨text, mapError_eq_ok.mp htext, mapError_eq_ok.mp hbase⟩, ?_⟩
      rw [← override_eq]
      exact Except.ok.inj h
    · rintro ⟨base, hbase, rfl⟩
      obtain ⟨text, hdisk, hread⟩ := configured_some_iff.mp hbase
      refine bind_eq_ok.mpr ⟨text, mapError_eq_ok.mpr hdisk, bind_eq_ok.mpr ⟨base, mapError_eq_ok.mpr hread, ?_⟩⟩
      rw [← override_eq]
      rfl

/-! ### Options that state settings -/

/-- The arguments for an option, if it is given. -/
def optionArguments (arg : String) : Option String → List String
  | none => []
  | some value => [arg, value]

def numeral (n : Nat) : String := String.ofList (Decimal.render n)

/-- The arguments that state settings. -/
def flagArguments (flags : Stated) : List String :=
  optionArguments "--threads" (flags.workers.map numeral) ++
    (optionArguments "--mask" (flags.reuse.map Settings.reuseName) ++
      optionArguments "--strategy" (flags.method.map Settings.methodName))

theorem isValue_numeral (n : Nat) : isValue (numeral n) = true := by
  have hhead : (numeral n).toList.head? ≠ some '-' := by
    intro h
    rw [numeral, String.toList_ofList] at h
    exact absurd (Decimal.isDigit_of_mem_render (List.mem_of_head? h)) (by decide)
  rw [isValue, bne_iff_ne.mpr hhead, Bool.or_true]

theorem number_numeral {n : Nat} (h : n < Word.bound) : Given.number (numeral n) = some n := by
  rw [Given.number, numeral, String.toList_ofList, Decimal.readWord_render h]
  rfl

/-- An option that takes a value takes it from the argument after its name. -/
theorem readArguments_value (name : String) (hsplit : splitArgument arg.toList = some (name, none))
    (hflag : g.withFlag name = none) (hvalue : isValue value = true) (hgiven : g.withValue name value = some g') :
    g.readArguments (arg :: value :: args) = g'.readArguments args := by
  rw [Given.readArguments, hsplit]
  · dsimp only
    rw [hflag]
    dsimp only
    rw [if_pos hvalue, hgiven]
    rfl
  · simp

/-- An option that may be given takes its value, and nothing changes without it. -/
theorem readArguments_option {α : Type} {print : α → String} (name : String) (given : Option α → Given)
    {a? : Option α} (hsplit : splitArgument arg.toList = some (name, none)) (hflag : (given none).withFlag name = none)
    (htakes : ∀ a ∈ a?, isValue (print a) = true ∧ (given none).withValue name (print a) = some (given (some a))) :
    (given none).readArguments (optionArguments arg (a?.map print) ++ args) = (given a?).readArguments args := by
  cases a? with
  | none => rfl
  | some a => exact readArguments_value name hsplit hflag (htakes a rfl).1 (htakes a rfl).2

/-- The options given so far, with these settings among them. -/
def Given.stating (g : Given) (flags : Stated) : Given :=
  { g with workers := flags.workers, reuse := flags.reuse, method := flags.method }

theorem readArguments_workers (g : Given) {workers : Option Nat} (hword : ∀ n ∈ workers, n < Word.bound) :
    (g.stating .nothing).readArguments (optionArguments "--threads" (workers.map numeral) ++ args) =
      (g.stating ⟨workers, none, none⟩).readArguments args := by
  refine readArguments_option "threads" (fun workers => g.stating ⟨workers, none, none⟩) (by decide +kernel) rfl ?_
  intro n hn
  refine ⟨isValue_numeral n, ?_⟩
  rw [Given.withValue, number_numeral (hword n hn)]
  rfl

theorem readArguments_reuse (g : Given) (workers : Option Nat) (reuse : Option Reuse) :
    (g.stating ⟨workers, none, none⟩).readArguments (optionArguments "--mask" (reuse.map Settings.reuseName) ++ args) =
      (g.stating ⟨workers, reuse, none⟩).readArguments args := by
  refine readArguments_option "mask" (fun reuse => g.stating ⟨workers, reuse, none⟩) (by decide +kernel) rfl ?_
  rintro (_ | _) _ <;> exact ⟨by decide +kernel, rfl⟩

theorem readArguments_method (g : Given) (workers : Option Nat) (reuse : Option Reuse) (method : Option Method) :
    (g.stating ⟨workers, reuse, none⟩).readArguments
        (optionArguments "--strategy" (method.map Settings.methodName) ++ args) =
      (g.stating ⟨workers, reuse, method⟩).readArguments args := by
  refine readArguments_option "strategy" (fun method => g.stating ⟨workers, reuse, method⟩) (by decide +kernel) rfl ?_
  rintro (_ | _) _ <;> exact ⟨by decide +kernel, rfl⟩

theorem readArguments_flags (g : Given) {flags : Stated} (hword : ∀ n ∈ flags.workers, n < Word.bound) :
    (g.stating .nothing).readArguments (flagArguments flags ++ args) = (g.stating flags).readArguments args := by
  rw [flagArguments, List.append_assoc, List.append_assoc, readArguments_workers g hword, readArguments_reuse,
    readArguments_method]

theorem withValue_graph (hnew : g.graph = none) (hname : value ≠ "") :
    g.withValue "graph" value = some { g with graph := value } := by
  rw [Given.withValue, Given.fileName, if_neg hname, hnew]
  rfl

theorem withValue_pattern (hnew : g.pattern = none) (value : String) :
    g.withValue "pattern" value = some { g with pattern := value } := by
  rw [Given.withValue, hnew]
  rfl

theorem withValue_config (hnew : g.config = none) (hname : value ≠ "") :
    g.withValue "config" value = some { g with config := value } := by
  rw [Given.withValue, Given.fileName, if_neg hname, hnew]
  rfl

theorem ofArguments_flags {graph pattern name : String} {flags : Stated}
    (hvalues : ∀ value ∈ [graph, pattern, name], isValue value = true) (hnames : graph ≠ "" ∧ name ≠ "")
    (hword : ∀ n ∈ flags.workers, n < Word.bound) :
    Options.ofArguments (["--graph", graph, "--pattern", pattern, "--config", name] ++ flagArguments flags) =
      some ⟨graph, pattern, none, flags.workers, flags.reuse, flags.method, false, false, some name⟩ := by
  obtain ⟨hgraph, hpattern, hname⟩ : isValue graph = true ∧ isValue pattern = true ∧ isValue name = true := by
    simpa using hvalues
  have hfiles : Given.nothing.readArguments ("--graph" :: graph :: "--pattern" :: pattern :: "--config" :: name ::
      (flagArguments flags ++ [])) =
        some (Given.stating ⟨graph, pattern, none, none, none, none, false, false, name⟩ flags) := by
    rw [readArguments_value (g := .nothing) "graph" (by decide +kernel) rfl hgraph (withValue_graph rfl hnames.1),
      readArguments_value "pattern" (by decide +kernel) rfl hpattern (withValue_pattern rfl pattern),
      readArguments_value "config" (by decide +kernel) rfl hname (withValue_config rfl hnames.2)]
    exact readArguments_flags ⟨graph, pattern, none, none, none, none, false, false, name⟩ hword
  rw [List.append_nil] at hfiles
  exact congrArg (·.bind Given.options) hfiles

/-- Settings that are written are read back, and what a text states goes over the standard settings. A run goes by the
settings in the file that is named, or by the standard ones, and has those that its options state in place of the same
settings there. Every choice of settings can be stated by options. -/
theorem settings_composed :
    (∀ s : Settings, s.workers < Word.bound → Settings.ofJson s.toJson = .ok s) ∧
      (∀ text stated, Settings.States text stated → Settings.ofJson text = .ok (stated.over .standard)) ∧
      (∀ disk o s, loadSettings disk o = .ok s ↔ ∃ base, Configured disk o.config base ∧ o.stated.over base = s) ∧
      ∀ graph pattern name (flags : Stated), (∀ value ∈ [graph, pattern, name], isValue value = true) →
        graph ≠ "" ∧ name ≠ "" → (∀ n ∈ flags.workers, n < Word.bound) →
        ∃ o, Options.ofArguments (["--graph", graph, "--pattern", pattern, "--config", name] ++ flagArguments flags) =
          some o ∧ o.graph = graph ∧ o.pattern = pattern ∧ o.config = some name ∧ o.stated = flags :=
  ⟨fun _ => Settings.ofJson_toJson, fun _ _ => Settings.ofJson_states, fun _ _ _ => loadSettings_eq_ok_iff,
    fun _ _ _ _ hvalues hnames hword => ⟨_, ofArguments_flags hvalues hnames hword, rfl, rfl, rfl, rfl⟩⟩

/-- Two settings: one has an escape in the name of its field and an object for a value, and before it comes a field
without a meaning. -/
def partly : List Char :=
  " \x7b\"note\":[null] ,\"\\u0073trategy\": \x7b\"count\":null\x7d,\"num-threads\":18446744073709551615\x7d\n".toList

theorem states_partly : Settings.States partly ⟨some 18446744073709551615, none, some .tally⟩ := by
  have hnote : Json.FieldText true (Json.writeName "note" ++ ':' :: "[null] ".toList)
      ("note".toList, "[null]".toList) := by
    have hplain : Json.Plain "note".toList := by decide +kernel
    exact Json.fieldText_writeName hplain ⟨[], [' '], by decide, by decide, rfl⟩
  have hstrategy : Json.FieldText true "\"\\u0073trategy\": \x7b\"count\":null\x7d".toList
      ("strategy".toList, Json.writeObject [("count", "null".toList)]) := by
    have hunit : Json.UnitText "0073".toList 0x73 := ⟨[0, 0, 7, 3], by decide +kernel, rfl, rfl⟩
    have hplain : Json.Plain "trategy".toList := by decide +kernel
    have hname : Json.Spelling true "\\u0073trategy".toList "strategy".toList :=
      .unit hunit (by decide) (hplain.spelling true)
    refine ⟨[], _, [], ' ' :: Json.writeObject [("count", "null".toList)], Json.gap_nil, hname, Json.gap_nil,
      ⟨[' '], [], by decide, Json.gap_nil, by simp⟩, by decide +kernel⟩
  have hthreads : Json.FieldText true (Json.writeName "num-threads" ++ ':' :: Decimal.render 18446744073709551615)
      ("num-threads".toList, Decimal.render 18446744073709551615) := by
    have hplain : Json.Plain "num-threads".toList := by decide +kernel
    exact Json.fieldText_writeName hplain (Json.padded_self _)
  have hcount : Settings.WritesMethod (Json.writeObject [("count", "null".toList)]) .tally :=
    .object (Json.objectText_writeObject (List.forall_mem_singleton.mpr (by decide +kernel)))
  have hnull : Json.Value "[null]".toList :=
    .list (Json.listText_writeList ["null".toList]) (List.forall_mem_singleton.mpr (.scalar (.name (by decide))))
  refine ⟨[' '], _, ['\n'], _, by decide, by decide,
    ⟨_, .pieces (.cons hnote (.cons hstrategy (.cons hthreads .nil))), rfl⟩, ⟨?_, ?_, ?_, ?_⟩, by decide +kernel⟩
  · exact .other (by decide) (.other (by decide) (.here ⟨by decide, rfl⟩ .nil))
  · exact .other (by decide) (.other (by decide) (.other (by decide) .nil))
  · exact .other (by decide) (.here hcount (.other (by decide) .nil))
  · refine List.forall_mem_cons.mpr ⟨fun _ => hnull, List.forall_mem_cons.mpr ⟨?_, List.forall_mem_singleton.mpr ?_⟩⟩
    · exact fun hother => absurd (by decide) hother
    · exact fun hother => absurd (by decide) hother

theorem settings_composed_flagged : Settings.States partly ⟨some 18446744073709551615, none, some .tally⟩ ∧
    ∃ o s, Options.ofArguments ["--graph", "edges", "--pattern", "clique:3", "--config", "partly",
        "--threads", "3", "--mask", "none"] = some o ∧
      loadSettings (fun _ => .ok partly) o = .ok s ∧ s = ⟨3, .allowed, .tally⟩ ∧ Settings.ofJson s.toJson = .ok s := by
  obtain ⟨hwritten, hstates, hload, harguments⟩ := settings_composed
  obtain ⟨o, ho, -, -, hconfig, hflags⟩ := harguments "edges" "clique:3" "partly" ⟨some 3, some .allowed, none⟩
    (by decide +kernel) (by decide) (by decide)
  have hspelt : flagArguments ⟨some 3, some .allowed, none⟩ = ["--threads", "3", "--mask", "none"] := by decide +kernel
  rw [hspelt] at ho
  have hfile : Configured (fun _ => .ok partly) o.config ⟨18446744073709551615, .forbidden, .tally⟩ := by
    rw [hconfig]
    exact .file rfl (hstates partly _ states_partly)
  have hloaded := (hload _ o _).mpr ⟨_, hfile, rfl⟩
  rw [hflags] at hloaded
  exact ⟨states_partly, o, _, ho, hloaded, rfl, hwritten _ (by decide)⟩

end Motif.Command
