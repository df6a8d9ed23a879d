import ChomskyNormal.Proofs.Arguments
import ChomskyNormal.Proofs.LeastHeights
import ChomskyNormal.Proofs.Membership
import ChomskyNormal.Proofs.Sentences
import ChomskyNormal.Proofs.Workups

/-!
# Requests answered one after the other

A request looks at the workup and the options, but not at the requests beside it, and only the one
for sentences moves the chooser. So a run prints what the requests print alone, each from the
choices that are left to it. The verdicts never fail, since the last grammar is normal, and they are
about the grammar that was read, since the passes keep its language. Only sentences can be refused,
if some are asked for and there is none; this ends the run.
-/

namespace ChomskyNormal

variable {σ : Type}

namespace Grammar

variable {g : Grammar}

theorem get?_heights_start_eq_none_iff :
    g.heights.get? g.start = none ↔ ∀ word, ¬ g.Generates word := by
  rw [← Option.not_isSome_iff_eq_none, OrderedMap.isSome_get?_iff, mem_keys_heights_iff]
  exact not_exists

theorem randomSentence_of_empty (empty : ∀ word, ¬ g.Generates word) (chooser : Chooser σ) (s : σ) :
    g.randomSentence chooser s = .error .emptyLanguage := by
  rw [randomSentence_eq, randomDerivation_of_unproductive (get?_heights_start_eq_none_iff.2 empty)]
  rfl

theorem exists_randomSentence_of_generates (inhabited : ∃ word, g.Generates word)
    (chooser : Chooser σ) (s : σ) :
    ∃ sentence s', g.randomSentence chooser s = .ok (sentence, s') := by
  cases top : g.heights.get? g.start with
  | none =>
    obtain ⟨word, generates⟩ := inhabited
    exact absurd generates (get?_heights_start_eq_none_iff.1 top word)
  | some h =>
    have row : g.heights.row? [.nonterminal g.start] = some h := by
      simp only [Heights.row?, top, Nat.max_zero]
    obtain ⟨f, s', grown, _⟩ := exists_grow chooser 0 _ h row s
    have derived : g.randomDerivation chooser s = .ok (f, s') := by
      rw [randomDerivation, top]
      exact grown
    exact ⟨f.yield, s', by rw [randomSentence_eq, derived]; rfl⟩

theorem exists_randomSentences (inhabited : ∃ word, g.Generates word) (chooser : Chooser σ)
    (count : Nat) (s : σ) :
    ∃ sentences s', g.randomSentences chooser count s = .ok (sentences, s') := by
  induction count generalizing s with
  | zero => exact ⟨[], s, rfl⟩
  | succ count ih =>
    have ⟨sentence, s₁, first⟩ := exists_randomSentence_of_generates inhabited chooser s
    have ⟨sentences, s₂, others⟩ := ih s₁
    refine ⟨sentence :: sentences, s₂, ?_⟩
    simp only [randomSentences, bind, StateT.bind, Except.bind, first, others]
    rfl

theorem randomSentences_of_empty (empty : ∀ word, ¬ g.Generates word) {count : Nat}
    (positive : 0 < count) (chooser : Chooser σ) (s : σ) :
    g.randomSentences chooser count s = .error .emptyLanguage := by
  cases count with
  | zero => contradiction
  | succ count =>
    simp only [randomSentences, bind, StateT.bind, Except.bind, randomSentence_of_empty empty]

/-- The choices that a request leaves to those behind it. -/
def chooserAfter (g : Grammar) (chooser : Chooser σ) (amount : Nat) (s : σ) : Request → σ
  | .sentences =>
    match g.randomSentences chooser amount s with
    | .ok (_, s') => s'
    | .error _ => s
  | _ => s

end Grammar

namespace Options

variable {options : Options} {g : Grammar} {text : String}

/-- The requests that cannot be answered: those for sentences, where there is none. -/
def Refuses (options : Options) (g : Grammar) (request : Request) : Prop :=
  request = .sentences ∧ 0 < options.amount ∧ ∀ word, ¬ g.Generates word

def alone (options : Options) (request : Request) : Options :=
  { options with requests := [request] }

/-- What each of the requests prints alone, with the choices that are left to it. -/
def printsAlone (options : Options) (chooser : Chooser σ) (text : String) (g : Grammar) (s : σ) :
    List Request → List String
  | [] => []
  | request :: requests =>
    ((options.alone request).runOnText chooser s text).stdout ::
      options.printsAlone chooser text g (g.chooserAfter chooser options.amount s request) requests

end Options

namespace Workup

variable {options : Options} {g h c : Grammar} {text : String} {chooser : Chooser σ}
  {request : Request} {s s' : σ}
  {w : Workup} {printed : String}

theorem answer_alone (w : Workup) (options : Options) (request : Request) :
    w.answer (options.alone request) chooser request s = w.answer options chooser request s := by
  cases request <;> rfl

theorem runOnText_of_answers {failure : Option GrammarError} (worked : ofText text = .ok w)
    (answers : w.answers options chooser s options.requests = (printed, failure)) :
    (options.runOnText chooser s text).stdout = printed ∧
      (options.runOnText chooser s text).code = if failure.isSome then 1 else 0 := by
  simp only [Options.runOnText, worked, answers]
  cases failure with
  | none => exact ⟨rfl, rfl⟩
  | some e => exact ⟨rfl, rfl⟩

theorem runOnText_alone (worked : ofText text = .ok w)
    (answered : w.answer options chooser request s = .ok (printed, s')) :
    ((options.alone request).runOnText chooser s text).stdout = printed ∧
      ((options.alone request).runOnText chooser s text).code = 0 := by
  have answers : w.answers (options.alone request) chooser s [request] = (printed, none) := by
    simp only [answers, answer_alone, answered, String.append_empty]
  exact runOnText_of_answers worked answers

theorem exists_verdicts (normalized : c.Normalized)
    (same : ∀ word, c.Generates word ↔ g.Generates word) (sentences : List String) :
    ∃ verdicts, (ofPasses g h c).verdicts sentences = .ok verdicts ∧
      verdicts.map Prod.fst = sentences ∧
        ∀ verdict ∈ verdicts, (verdict.2 = true ↔ g.Generates (words verdict.1.toList)) := by
  induction sentences with
  | nil => exact ⟨[], rfl, rfl, by simp⟩
  | cons sentence sentences ih =>
    have ⟨others, later, names, correct⟩ := ih
    have ⟨accepted, e, decided⟩ :=
      Grammar.exists_accepts_iff_generates normalized.normal normalized.emptyOnlyAtStart
      (words sentence.toList)
    refine ⟨(sentence, accepted) :: others, ?_, by rw [List.map_cons, names], ?_⟩
    · have first : ((ofPasses g h c).after .binarize).acceptsSentence sentence = .ok accepted := e
      rw [verdicts] at later
      simp only [verdicts, List.mapM_cons, first, later]
      rfl
    · exact List.forall_mem_cons.2 ⟨decided.trans (same _), correct⟩

theorem answer_of_refuses (refuses : options.Refuses g request) :
    (ofPasses g h c).answer options chooser request s = .error .emptyLanguage := by
  have ⟨asked, positive, empty⟩ := refuses
  subst asked
  have refused := Grammar.randomSentences_of_empty empty positive chooser s
  simp only [answer, ofPasses, bind, StateT.bind, Except.bind, refused]

theorem exists_answer (chooser : Chooser σ) (s : σ) (normalized : c.Normalized)
    (same : ∀ word, c.Generates word ↔ g.Generates word)
    (answerable : ¬ options.Refuses g request) :
    ∃ printed, (ofPasses g h c).answer options chooser request s =
      .ok (printed, g.chooserAfter chooser options.amount s request) := by
  cases request with
  | productions | epsilonFree | unitFree | useful | normalForm | steps | hierarchyType =>
    exact ⟨_, rfl⟩
  | sentences =>
    have ⟨sentences, s', found⟩ : ∃ sentences s',
        g.randomSentences chooser options.amount s = .ok (sentences, s') := by
      by_cases inhabited : ∃ word, g.Generates word
      · exact Grammar.exists_randomSentences inhabited chooser options.amount s
      · have none : options.amount = 0 := by
          by_contra positive
          exact answerable ⟨rfl, Nat.pos_of_ne_zero positive, not_exists.1 inhabited⟩
        exact ⟨[], s, by rw [none]; rfl⟩
    refine ⟨options.format.writeSentences sentences, ?_⟩
    simp only [answer, ofPasses, Grammar.chooserAfter, bind, StateT.bind, Except.bind, found]
    rfl
  | membership =>
    have ⟨verdicts, e, _⟩ := exists_verdicts (h := h) normalized same options.sentences
    refine ⟨options.format.writeVerdicts verdicts, ?_⟩
    simp only [answer, e, Grammar.chooserAfter]
    rfl

theorem exists_answers (options : Options) (chooser : Chooser σ)
    (worked : ofText text = .ok (ofPasses g h c)) (normalized : c.Normalized)
    (same : ∀ word, c.Generates word ↔ g.Generates word) (requests : List Request) (s : σ) :
    ∃ answered rest, requests = answered ++ rest ∧
      (∀ request ∈ answered, ¬ options.Refuses g request) ∧
      (∀ request ∈ rest.head?, options.Refuses g request) ∧
      (ofPasses g h c).answers options chooser s requests =
        (String.join (options.printsAlone chooser text g s answered),
          rest.head?.map fun _ => .emptyLanguage) := by
  -- The choices that are left change from request to request: the induction is about all of them.
  induction requests generalizing s with
  | nil => exact ⟨[], [], rfl, by simp, by simp, rfl⟩
  | cons request requests ih =>
    by_cases refuses : options.Refuses g request
    · refine ⟨[], request :: requests, rfl, by simp, by simpa using refuses, ?_⟩
      simp only [answers, answer_of_refuses refuses]
      rfl
    · obtain ⟨printed, answered⟩ := exists_answer (h := h) chooser s normalized same refuses
      obtain ⟨before, rest, cut, fine, failing, later⟩ :=
        ih (g.chooserAfter chooser options.amount s request)
      refine ⟨request :: before, rest, by rw [cut]; rfl,
        List.forall_mem_cons.2 ⟨refuses, fine⟩, failing, ?_⟩
      have alone := (runOnText_alone worked answered).1
      simp only [answers, answered, later, Options.printsAlone, alone, String.join_cons]

end Workup

theorem Format.writeVerdicts_eq (format : Format) (verdicts : List (String × Bool)) :
    format.writeVerdicts verdicts =
      if format = .json then
        "[" ++ ",".intercalate (verdicts.map fun (sentence, accepted) =>
          "\x7b\"accepted\":" ++ (if accepted then "true" else "false") ++
            ",\"sentence\":" ++ Json.quote sentence ++ "\x7d") ++ "]\n"
      else String.join (verdicts.map fun (sentence, accepted) =>
        sentence ++ ": " ++ (if accepted then "accepted" else "rejected") ++ "\n") := by
  have member (sentence : String) (accepted : Bool) :
      Json.object [("accepted", Json.boolean accepted), ("sentence", Json.quote sentence)] =
        "\x7b\"accepted\":" ++ (if accepted then "true" else "false") ++ ",\"sentence\":" ++
          Json.quote sentence ++ "\x7d" := by
    have first : "\x7b\"accepted\":" = "\x7b" ++ Json.quote "accepted" ++ ":" := rfl
    have second : ",\"sentence\":" = "," ++ Json.quote "sentence" ++ ":" := rfl
    simp [Json.object, Json.boolean, first, second, String.append_assoc]
  cases format with
  | json => simp [writeVerdicts, line, Json.array, member, String.append_assoc]
  | plain | latex => simp [writeVerdicts, line, String.append_assoc]

namespace Options

variable {g : Grammar} {text : String}

theorem steps_json {h c : Grammar} (worked : Workup.ofText text = .ok (Workup.ofPasses g h c))
    {options : Options} (json : options.format = .json) (chooser : Chooser σ) (s : σ) :
    ((options.alone .steps).runOnText chooser s text).stdout =
      ((options.alone .epsilonFree).runOnText chooser s text).stdout ++
        ((options.alone .unitFree).runOnText chooser s text).stdout ++
          ((options.alone .useful).runOnText chooser s text).stdout ++
            ((options.alone .normalForm).runOnText chooser s text).stdout := by
  have answered (request : Request) (printed : String)
      (e : (Workup.ofPasses g h c).answer options chooser request s = .ok (printed, s)) :
      ((options.alone request).runOnText chooser s text).stdout = printed :=
        (Workup.runOnText_alone worked e).1
  rw [answered .steps _ rfl, answered .epsilonFree _ rfl, answered .unitFree _ rfl,
    answered .useful _ rfl, answered .normalForm _ rfl, json]
  simp only [Workup.ofPasses, List.map_cons, List.map_nil, Format.heading, String.join_cons,
    String.join_nil, String.empty_append, String.append_empty, String.append_assoc]
  rfl

theorem isSome_head?_rest_iff {options : Options} {answered rest : List Request}
    (cut : options.requests = answered ++ rest)
    (fine : ∀ request ∈ answered, ¬ options.Refuses g request)
    (failing : ∀ request ∈ rest.head?, options.Refuses g request) :
    rest.head?.isSome ↔
      .sentences ∈ options.requests ∧ 0 < options.amount ∧ ∀ word, ¬ g.Generates word := by
  -- Where the run is cut, there is a request for sentences that cannot be had.
  rw [cut, List.mem_append]
  constructor
  · intro found
    have ⟨request, e⟩ := Option.isSome_iff_exists.1 found
    have ⟨asked, positive, empty⟩ := failing request e
    exact ⟨.inr (asked ▸ List.mem_of_mem_head? e), positive, empty⟩
  · intro ⟨asked, positive, empty⟩
    have mem := asked.resolve_left fun mem => fine _ mem ⟨rfl, positive, empty⟩
    exact List.isSome_head?.2 (List.ne_nil_of_mem mem)

theorem runOnText_composes (parsed : Grammar.parse text = .ok g) (options : Options)
    (chooser : Chooser σ) (s : σ) :
    (∃ answered rest, options.requests = answered ++ rest ∧
        (∀ request ∈ answered, ¬ options.Refuses g request) ∧
        (∀ request ∈ rest.head?, options.Refuses g request) ∧
          (options.runOnText chooser s text).stdout =
            String.join (options.printsAlone chooser text g s answered)) ∧
      (.sentences ∈ options.requests ∧ 0 < options.amount ∧ (∀ word, ¬ g.Generates word) →
        (options.runOnText chooser s text).code = 1) ∧
      (¬ (.sentences ∈ options.requests ∧ 0 < options.amount ∧ ∀ word, ¬ g.Generates word) →
        (options.runOnText chooser s text).code = 0) ∧
      (∃ verdicts : List (String × Bool), verdicts.map Prod.fst = options.sentences ∧
        (∀ verdict ∈ verdicts, (verdict.2 = true ↔ g.Generates (words verdict.1.toList))) ∧
          ((options.alone .membership).runOnText chooser s text).code = 0 ∧
          ((options.alone .membership).runOnText chooser s text).stdout =
            if options.format = .json then
              "[" ++ ",".intercalate (verdicts.map fun (sentence, accepted) =>
                "\x7b\"accepted\":" ++ (if accepted then "true" else "false") ++
                  ",\"sentence\":" ++ Json.quote sentence ++ "\x7d") ++ "]\n"
            else String.join (verdicts.map fun (sentence, accepted) =>
              sentence ++ ": " ++ (if accepted then "accepted" else "rejected") ++ "\n")) ∧
      (options.format = .json → ((options.alone .steps).runOnText chooser s text).stdout =
        ((options.alone .epsilonFree).runOnText chooser s text).stdout ++
          ((options.alone .unitFree).runOnText chooser s text).stdout ++
            ((options.alone .useful).runOnText chooser s text).stdout ++
              ((options.alone .normalForm).runOnText chooser s text).stdout) ∧
      options.run chooser s (.ok text.toUTF8) = options.runOnText chooser s text ∧
      ∀ given written, List.Forall₂ Argument.Written given written → Argument.Consistent given →
        ofArguments given = options → ∀ (m : Type → Type) [Monad m]
          (read : Option String → m (Except ReadFault ByteArray)),
            runProgram read chooser s written.flatten = do
              let content ← read options.file
              return options.run chooser s content := by
  have ⟨h, c, worked, _, normalized, same⟩ := Workup.exists_ofText parsed
  have ⟨answered, rest, cut, fine, failing, answers⟩ :=
    Workup.exists_answers options chooser worked normalized same options.requests s
  have ⟨verdicts, judged, names, correct⟩ :=
    Workup.exists_verdicts (h := h) normalized same options.sentences
  have checked : (Workup.ofPasses g h c).answer options chooser .membership s =
      .ok (options.format.writeVerdicts verdicts, s) := by
    simp only [Workup.answer, judged]
    rfl
  have ⟨listed, code⟩ := Workup.runOnText_alone worked checked
  have ⟨printed, exit⟩ := Workup.runOnText_of_answers worked answers
  have refused := isSome_head?_rest_iff cut fine failing
  rw [Option.isSome_map] at exit
  exact ⟨⟨answered, rest, cut, fine, failing, printed⟩,
    fun hopeless => exit.trans (if_pos (refused.2 hopeless)),
    fun hopeful => exit.trans (if_neg fun found => hopeful (refused.1 found)),
    ⟨verdicts, names, correct, code, listed.trans (options.format.writeVerdicts_eq verdicts)⟩,
    fun json => steps_json worked json chooser s, options.run_toUTF8 chooser s text,
    fun given written spelt consistent meant m _ read =>
      runProgram_eq (meant ▸ Invocation.read?_written spelt consistent) chooser s⟩

end Options

namespace Grammar

def endless : Grammar :=
  (bare "S" ["S"] ["a"]).addProductions [("S", [.terminal "a", .nonterminal "S"])]

theorem exists_generates_endless {word : List String} (d : endless.Generates word) :
    ∃ rest, word = "a" :: rest ∧ endless.Generates rest := by
  have only : ∀ right ∈ (endless.alternatives "S").toList,
      right = [.terminal "a", .nonterminal "S"] := by decide
  have ⟨right, mem, below⟩ := derives_nonterminal_iff.1 d
  rw [only right mem] at below
  have ⟨front, rest, e, first, others⟩ := derives_cons_iff.1 below
  rw [derives_terminal_iff.1 first] at e
  exact ⟨rest, e, others⟩

theorem not_generates_endless (word : List String) : ¬ endless.Generates word := by
  intro d
  induction word with
  | nil => exact nomatch exists_generates_endless d
  | cons symbol word ih =>
    have ⟨rest, e, d'⟩ := exists_generates_endless d
    exact ih ((List.cons.inj e).2 ▸ d')

end Grammar

def Options.mixed : Options :=
  ⟨[.hierarchyType, .sentences, .membership], none, .json, 2, ["a a"], false⟩

theorem Options.runOnText_composes_endless : Grammar.parse "S -> a S" = .ok .endless ∧
    runProgram (standardInput "S -> a S") Draws.chooser ⟨[], 0⟩
        ["type", "gen", "check", "-j", "-n", "2", "-w", "a a"] =
      mixed.runOnText Draws.chooser ⟨[], 0⟩ "S -> a S" ∧
    (mixed.runOnText Draws.chooser ⟨[], 0⟩ "S -> a S").code = 1 ∧
    (mixed.runOnText Draws.chooser ⟨[], 0⟩ "S -> a S").stdout =
      ((mixed.alone .hierarchyType).runOnText Draws.chooser ⟨[], 0⟩ "S -> a S").stdout := by
  have parsed : Grammar.parse "S -> a S" = .ok .endless := rfl
  have refuses : mixed.Refuses .endless .sentences :=
    ⟨rfl, by decide, Grammar.not_generates_endless⟩
  have ⟨⟨answered, rest, cut, fine, failing, printed⟩, hopeless, _, _, _, run, program⟩ :=
    runOnText_composes parsed mixed Draws.chooser ⟨[], 0⟩
  have spelt : List.Forall₂ Argument.Written
      [.request .hierarchyType, .request .sentences, .request .membership, .json, .amount 2,
        .word "a a"]
      [["type"], ["gen"], ["check"], ["-j"], ["-n", "2"], ["-w", "a a"]] :=
    .cons .hierarchyType (.cons .sentences (.cons .membership (.cons (.json (by simp))
      (.cons (.amount (by decide) (.shortApart (by decide)))
        (.cons (.word (.shortApart (by decide))) .nil)))))
  have asked :=
    program _ _ spelt ⟨by decide, by decide, by decide⟩ rfl Id (standardInput "S -> a S")
  refine ⟨parsed, asked.trans run, hopeless ⟨by decide, refuses.2⟩, ?_⟩
  match answered, cut, fine, printed with
  | [], cut, _, _ =>
    have e : rest.head? = some .hierarchyType := by rw [← List.nil_append rest, ← cut]; rfl
    exact absurd (failing _ e).1 (by decide)
  | [first], cut, _, printed =>
    rw [printed, ← (List.cons.inj cut).1, printsAlone, printsAlone, String.join_cons,
      String.join_nil, String.append_empty]
  | first :: second :: others, cut, fine, _ =>
    have e : second = .sentences := (List.cons.inj (List.cons.inj cut).2).1.symm
    exact absurd (e ▸ refuses) (fine second (by simp))

end ChomskyNormal
