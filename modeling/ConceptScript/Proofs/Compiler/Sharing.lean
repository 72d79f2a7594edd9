import Mathlib.Data.Finset.Card
import Mathlib.Data.Finset.Insert
import ConceptScript.Compiler
import ConceptScript.Proofs.Statement.Steady

namespace ConceptScript

open PropertyList (Cache)

/-- Just these texts are known, each with what splitting it gives. -/
structure PropertyList.Cache.Knows (cache : Cache) (texts : List String) : Prop where
  answer : ∀ text, cache.known[text]? =
    if text ∈ texts then some (PropertyList.split text) else none
  size : cache.size = texts.toFinset.card

namespace PropertyList.Cache

theorem knows_empty : Knows {} [] := ⟨by simp, rfl⟩

theorem Knows.split {cache : Cache} {texts : List String} (h : cache.Knows texts)
    (text : String) : (cache.split text).2.Knows (texts ++ [text]) := by
  have hasked := h.answer text
  unfold Cache.split
  by_cases ht : text ∈ texts
  · rw [if_pos ht] at hasked
    rw [hasked]
    constructor
    · intro other
      rw [h.answer other]
      by_cases ho : other = text
      · simp [ho, ht]
      · simp [ho]
    · rw [h.size, List.toFinset_append]
      simp [ht]
  · rw [if_neg ht] at hasked
    rw [hasked]
    constructor
    · intro other
      rw [Std.HashMap.getElem?_insert, h.answer other]
      by_cases ho : text = other
      · simp [ho]
      · simp [ho, Ne.symm ho]
    · have hnew : text ∉ cache.known := by
        rw [Std.HashMap.mem_iff_isSome_getElem?, hasked]
        simp
      have hsize : cache.known.size = texts.toFinset.card := h.size
      change (cache.known.insert text (PropertyList.split text)).size = _
      rw [Std.HashMap.size_insert, if_neg hnew, hsize, List.toFinset_append]
      simp [ht]

end PropertyList.Cache

/-- From what is remembered, the computation comes to a result and to what is remembered then. The
calls are the texts that it asks for, each with what is remembered right after. -/
inductive Asks : {α : Type} → StateM Cache α → Cache → List (String × Cache) → α → Cache → Prop
  | result {α : Type} (a : α) (cache : Cache) : Asks (pure a) cache [] a cache
  | split (text : String) (cache : Cache) :
      Asks (modifyGet fun cache => cache.split text) cache [(text, (cache.split text).2)]
        (cache.split text).1 (cache.split text).2
  | step {α β : Type} {x : StateM Cache α} {f : α → StateM Cache β} {cache between cache' : Cache}
      {calls more : List (String × Cache)} {a : α} {b : β} : Asks x cache calls a between →
      Asks (f a) between more b cache' → Asks (x >>= f) cache (calls ++ more) b cache'

namespace Asks

variable {α : Type} {x : StateM Cache α} {cache cache' : Cache} {calls : List (String × Cache)}
  {a : α}

theorem run (h : Asks x cache calls a cache') : x.run cache = (a, cache') := by
  induction h with
  | result => rfl
  | split => rfl
  | @step α β x f cache between cache' calls more a b _ _ hx hf =>
    change (let (a, between) := x.run cache; (f a).run between) = _
    rw [hx]
    exact hf

theorem knows (h : Asks x cache calls a cache') {texts : List String} (hc : cache.Knows texts) :
    cache'.Knows (texts ++ calls.map Prod.fst) ∧
      ∀ before text now after, calls = before ++ (text, now) :: after →
        now.Knows (texts ++ before.map Prod.fst ++ [text]) := by
  induction h generalizing texts with
  | result a cache => exact ⟨by simpa using hc, by simp⟩
  | split asked cache =>
    refine ⟨hc.split asked, ?_⟩
    intro before text now after heq
    obtain ⟨rfl, hcall, _⟩ : before = [] ∧ (asked, (cache.split asked).2) = (text, now) ∧
        after = [] := by
      cases before with
      | nil => simpa using heq
      | cons => simp at heq
    obtain ⟨rfl, rfl⟩ := Prod.mk.inj hcall
    simpa using hc.split asked
  | @step α β x f cache between cache' calls more a b _ _ hx hf =>
    obtain ⟨hbetween, hcalls⟩ := hx hc
    obtain ⟨hend, hmore⟩ := hf hbetween
    refine ⟨by simpa using hend, ?_⟩
    intro before text now after heq
    rcases List.append_eq_append_iff.mp heq with ⟨skipped, rfl, hrest⟩ | ⟨later, hcut, hrest⟩
    · have hknows := hmore skipped text now after hrest
      simpa using hknows
    · cases later with
      | nil =>
        have hknows := hmore [] text now after hrest.symm
        rw [List.append_nil] at hcut
        simpa [hcut] using hknows
      | cons call later =>
        obtain ⟨rfl, _⟩ := List.cons.inj hrest
        exact hcalls before text now later hcut

end Asks

/-- Whatever is remembered, the computation can be followed from one text to the next. -/
def Traced {α : Type} (x : StateM Cache α) : Prop :=
  ∀ cache, ∃ calls a cache', Asks x cache calls a cache'

namespace Traced

variable {α β : Type}

theorem pure (a : α) : Traced (pure a) := fun cache => ⟨[], a, cache, .result a cache⟩

theorem split (text : String) : Traced (modifyGet fun cache => cache.split text) :=
  fun cache => ⟨_, _, _, .split text cache⟩

theorem bind {x : StateM Cache α} {f : α → StateM Cache β} (hx : Traced x)
    (hf : ∀ a, Traced (f a)) : Traced (x >>= f) := by
  intro cache
  obtain ⟨calls, a, between, hcalls⟩ := hx cache
  obtain ⟨more, b, cache', hmore⟩ := hf a between
  exact ⟨calls ++ more, b, cache', .step hcalls hmore⟩

theorem step {ε : Type} {x : ExceptT ε (StateM Cache) α} {f : α → ExceptT ε (StateM Cache) β}
    (hx : Traced x.run) (hf : ∀ a, Traced (f a).run) : Traced (x >>= f).run := by
  change Traced (x.run >>= ExceptT.bindCont f)
  refine hx.bind ?_
  rintro (e | a)
  · exact pure (Except.error e)
  · exact hf a

theorem mapM {f : α → StateM Cache β} (hf : ∀ a, Traced (f a)) (as : List α) :
    Traced (as.mapM f) := by
  induction as with
  | nil => exact pure []
  | cons a as ih =>
    rw [List.mapM_cons]
    exact (hf a).bind fun b => ih.bind fun bs => pure (b :: bs)

end Traced

theorem Reader.Composed.traced {α : Type} {x : Attempt α} (h : Composed x) : Traced x.run := by
  induction h with
  | result a => exact .pure (Except.ok a)
  | silent => exact .pure (Except.error Failure.silent)
  | mismatch reason => exact .pure (Except.error (Failure.mismatch reason))
  | fatal r span fault => exact .pure (Except.error (Failure.fatal _))
  | split text => exact (Traced.split text).bind fun answer => .pure (Except.ok answer)
  | step _ _ hx hf => exact hx.step hf

theorem Assembled.traced {α : Type} {x : Parsing α} (h : Assembled x) : Traced x.run := by
  induction h with
  | result x => exact .pure x
  | attempt hx => exact hx.traced.bind fun result => .pure (Except.ok result)
  | step _ _ hx hf => exact hx.step hf

inductive Job where
  | parse (registry : Registry) (options : Options) (scripts : List Script)
  | compile (compiler : Compiler) (scripts : List Script)

namespace Job

def run : Job → Parsing (Parsed ⊕ Compilation)
  | parse registry options scripts => .inl <$> parseScripts registry options scripts
  | compile compiler scripts => .inr <$> compiler.compile scripts

/-- The jobs one after the other, each with what the ones before it remember. -/
def runAll (jobs : List Job) : StateM Cache (List (Except Diagnostic (Parsed ⊕ Compilation))) :=
  jobs.mapM fun job => job.run.run

theorem assembled_parseScripts (registry : Registry) (options : Options) (scripts : List Script) :
    Assembled (parseScripts registry options scripts) := by
  induction scripts with
  | nil => exact Assembled.pure ({} : Parsed)
  | cons script scripts ih =>
    exact .step (script.assembled_parse registry options) fun first => ih.map (first ++ ·)

theorem assembled_run (job : Job) : Assembled job.run := by
  cases job with
  | parse registry options scripts => exact (assembled_parseScripts ..).map Sum.inl
  | compile compiler scripts =>
    exact .map (.step (assembled_parseScripts ..) fun parsed => .result (compiler.finish parsed))
      Sum.inr

theorem results_runAll (jobs : List Job) {cache : Cache} (hc : cache.Sound) :
    ((runAll jobs).run cache).1 = jobs.map fun job => outcome job.run := by
  induction jobs generalizing cache with
  | nil => rfl
  | cons job jobs ih =>
    have hsteady := job.assembled_run.steady
    have hrest := ih (hsteady.sound cache hc)
    rw [List.map_cons, ← hrest, ← hsteady.same cache hc, runAll, List.mapM_cons]
    rfl

/-- Jobs that share what they remember do not see one another. Each gives what it gives alone, and
however the jobs are followed from one text to the next, what is remembered at every point is the
texts asked for so far, with the right answers. -/
theorem shared_cache_invisible (jobs : List Job) :
    (∃ calls results cache, Asks (runAll jobs) {} calls results cache) ∧
      ∀ calls results cache, Asks (runAll jobs) {} calls results cache →
        (runAll jobs).run {} = (results, cache) ∧
        results = (jobs.map fun job => outcome job.run) ∧
        cache.Knows (calls.map Prod.fst) ∧
        ∀ before text now after, calls = before ++ (text, now) :: after →
          now.Knows (before.map Prod.fst ++ [text]) := by
  refine ⟨Traced.mapM (fun job => job.assembled_run.traced) jobs {}, ?_⟩
  intro calls results cache hasks
  have hresults := results_runAll jobs Cache.sound_empty
  rw [hasks.run] at hresults
  exact ⟨hasks.run, hresults, hasks.knows Cache.knows_empty⟩

end Job

end ConceptScript
