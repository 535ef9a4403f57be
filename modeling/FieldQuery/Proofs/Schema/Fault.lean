import FieldQuery.Proofs.Schema.Continuation

/-!
Schemas that do not compile. The reported text is what is left of the schema,
and what was read before it begins some schema that compiles: closing braces
are all that is missing. How a run ends does not depend on the tree that was
built so far, so runs over different texts are compared by the number of their
open groups and by whether they stand behind a call.
-/

namespace FieldQuery.Schema

theorem exists_cons_of_takeCall? {text rest : List Char} {call : Call}
    (h : takeCall? text = some (call, rest)) :
    ∃ c tail, text = c :: tail ∧ isNameChar c = true := by
  obtain ⟨label, name, params, hhead⟩ := spellsHead_of_takeCall? h
  exact hhead.exists_cons

/-- A call is read alike before another text that continues no part of it. -/
theorem takeCall?_replace {text rest : List Char} {call : Call}
    (h : takeCall? text = some (call, rest)) :
    ∃ read, text = read ++ rest ∧ ∀ rest', Replaces rest rest' → Follows rest' →
      ∃ call', takeCall? (read ++ rest') = some (call', rest') := by
  obtain ⟨label, name, params, hhead⟩ := spellsHead_of_takeCall? h
  obtain ⟨read, rfl, hread⟩ := hhead.replace
  refine ⟨read, rfl, ?_⟩
  intro rest' hrest hfollows
  exact ⟨_, (hread rest' hrest).takeCall?_eq hfollows⟩

/-! Ends of runs. -/

/-- Every cursor with so many open groups, behind a call or not, runs over the
text to such a result. -/
def Ends (P : Except Fault Selection → Prop) (depth : Nat) (afterCall : Bool)
    (text : List Char) : Prop :=
  ∀ c : Cursor, c.groups.length = depth → c.last.isSome = afterCall → c.rest = text → P c.run

/-- The run gives a selection. -/
def Succeeds (result : Except Fault Selection) : Prop := ∃ s, result = .ok s

namespace Ends

variable {P : Except Fault Selection → Prop} {depth : Nat} {afterCall : Bool}
  {text tail : List Char}

theorem finish (htext : Text.trimStart text = []) : Ends Succeeds 0 afterCall text := by
  intro c hgroups _ hrest
  have hstep : c.step = .ok none := Cursor.step_end (by rw [hrest, htext])
  have hnone : c.groups = [] := List.length_eq_zero_iff.mp hgroups
  exact ⟨c.tree, by rw [Cursor.run_of_step_end hstep, Cursor.finish, hnone]⟩

theorem open_group (htext : Text.trimStart text = '{' :: tail)
    (h : Ends P (depth + 1) false tail) : Ends P depth true text := by
  intro c hgroups hlast hrest
  obtain ⟨place, hplace⟩ := Option.isSome_iff_exists.mp hlast
  rw [Cursor.run_of_step (Cursor.step_open (by rw [hrest, htext]) hplace)]
  exact h _ (by simp [hgroups]) rfl rfl

theorem close_group (htext : Text.trimStart text = '}' :: tail) (h : Ends P depth false tail) :
    Ends P (depth + 1) afterCall text := by
  intro c hgroups _ hrest
  obtain ⟨group, outer, hcons⟩ := List.exists_cons_of_length_eq_add_one hgroups
  rw [Cursor.run_of_step (Cursor.step_close (by rw [hrest, htext]) hcons)]
  exact h _ (by simpa [hcons] using hgroups) rfl rfl

theorem call {found : Call} (hcall : takeCall? (Text.trimStart text) = some (found, tail))
    (h : Ends P depth true tail) : Ends P depth afterCall text := by
  intro c hgroups _ hrest
  obtain ⟨first, rest, hcons, hfirst⟩ := exists_cons_of_takeCall? hcall
  have hstep := Cursor.step_call (c := c) (by rw [hrest, hcons]) hfirst (hcons ▸ hcall)
  rw [Cursor.run_of_step hstep]
  exact h _ hgroups rfl rfl

/-- Closing braces for all open groups end a text. -/
theorem closings (hblank : AllBlank text) :
    Ends Succeeds depth afterCall (text ++ List.replicate depth '}') := by
  induction depth generalizing text afterCall with
  | zero =>
      apply finish
      simpa using Text.trimStart_eq_nil hblank
  | succ depth ih =>
      have htext : Text.trimStart (text ++ List.replicate (depth + 1) '}') =
          '}' :: List.replicate depth '}' := by
        rw [Text.trimStart_append hblank, List.replicate_succ, Text.trimStart_cons (by decide)]
      have hnil : AllBlank [] := by simp [AllBlank]
      exact close_group htext (ih hnil)

end Ends

/-! Texts in place of the text before a cursor. -/

/-- The cursor may as well stand before the other text, over which it would run
to such a result. -/
structure Instead (P : Except Fault Selection → Prop) (c : Cursor) (text : List Char) : Prop where
  replaces : Replaces c.rest text
  follows : Follows text
  ends : Ends P c.groups.length c.last.isSome text

theorem trimStart_brace {before : List Char} (hbefore : AllBlank before) {brace : Char}
    (hbrace : brace = '{' ∨ brace = '}') (tail : List Char) :
    Text.trimStart (before ++ brace :: tail) = brace :: tail := by
  rw [Text.trimStart_append hbefore]
  rcases hbrace with rfl | rfl <;> exact Text.trimStart_cons (by decide) _

/-- What may stand instead after a step may stand, behind what the step reads,
before it. -/
theorem Cursor.instead_of_step {c next : Cursor} (h : c.step = .ok (some next)) :
    ∃ read, c.rest = read ++ next.rest ∧
      ∀ P text, Instead P next text → Instead P c (read ++ text) := by
  obtain ⟨before, hbefore, htrim⟩ := Text.exists_blank_append_trimStart c.rest
  rcases step_cases h with ⟨place, tail, hplace, htext, rfl⟩ |
    ⟨group, outer, tail, hgroups, htext, rfl⟩ | ⟨call, tail, hcall, rfl⟩
  · rw [htext] at htrim
    have hread : c.rest = (before ++ ['{']) ++ tail := by simp [← htrim]
    refine ⟨before ++ ['{'], hread, ?_⟩
    intro P text hnext
    refine ⟨hread ▸ hnext.replaces.append _, ?_, ?_⟩
    · simpa using follows_brace hbefore (Or.inl rfl) text
    · rw [hplace]
      refine Ends.open_group ?_ hnext.ends
      simpa using trimStart_brace hbefore (Or.inl rfl) text
  · rw [htext] at htrim
    have hread : c.rest = (before ++ ['}']) ++ tail := by simp [← htrim]
    refine ⟨before ++ ['}'], hread, ?_⟩
    intro P text hnext
    refine ⟨hread ▸ hnext.replaces.append _, ?_, ?_⟩
    · simpa using follows_brace hbefore (Or.inr rfl) text
    · rw [hgroups]
      refine Ends.close_group ?_ hnext.ends
      simpa using trimStart_brace hbefore (Or.inr rfl) text
  · obtain ⟨taken, htaken, hreplace⟩ := takeCall?_replace hcall
    rw [htaken] at htrim
    have hread : c.rest = (before ++ taken) ++ tail := by simp [← htrim]
    refine ⟨before ++ taken, hread, ?_⟩
    intro P text hnext
    obtain ⟨call', hcall'⟩ := hreplace text hnext.replaces hnext.follows
    obtain ⟨first, rest, hcons, hfirst⟩ := exists_cons_of_takeCall? hcall'
    have hstart : Text.trimStart (before ++ taken ++ text) = taken ++ text := by
      rw [List.append_assoc, Text.trimStart_append hbefore, hcons,
        Text.trimStart_cons (isBlank_of_isNameChar hfirst)]
    refine ⟨hread ▸ hnext.replaces.append _, ?_, ?_⟩
    · apply follows_of_trimStart_cons (hstart.trans hcons)
      · rintro rfl
        exact absurd hfirst (by decide)
      · rintro rfl
        exact absurd hfirst (by decide)
    · exact Ends.call (by rwa [hstart]) hnext.ends

/-! What stands before the cursor where a run fails. -/

/-- A step fails before a group without a call, before a brace that closes
nothing, or before text that is no call. -/
theorem Cursor.step_error_cases {c : Cursor} {fault : Fault} (h : c.step = .error fault) :
    Text.trimStart c.rest = fault.rest ∧
      ((∃ tail, fault = ⟨.groupWithoutCall, '{' :: tail⟩ ∧ c.last = none) ∨
        (∃ tail, fault = ⟨.unmatchedClose, '}' :: tail⟩ ∧ c.groups = []) ∨
        ∃ first tail, fault = ⟨.expectedCall, first :: tail⟩) := by
  unfold step at h
  generalize Text.trimStart c.rest = rest at h ⊢
  dsimp only at h
  split at h
  next => simp at h
  next tail =>
    cases hlast : c.last with
    | none =>
        obtain rfl : _ = fault := by simpa [hlast] using h
        exact ⟨rfl, Or.inl ⟨tail, rfl, rfl⟩⟩
    | some place => simp [hlast] at h
  next tail =>
    cases hgroups : c.groups with
    | nil =>
        obtain rfl : _ = fault := by simpa [hgroups] using h
        exact ⟨rfl, Or.inr (Or.inl ⟨tail, rfl, rfl⟩)⟩
    | cons group outer => simp [hgroups] at h
  next hnil _ _ =>
    cases hcall : takeCall? rest with
    | none =>
        obtain rfl : _ = fault := by simpa [hcall] using h
        cases rest with
        | nil => exact absurd rfl hnil
        | cons first tail => exact ⟨rfl, Or.inr (Or.inr ⟨first, tail, rfl⟩)⟩
    | some found => simp [hcall] at h

theorem Cursor.finish_error {c : Cursor} {fault : Fault} (h : c.finish = .error fault) :
    ∃ group outer, c.groups = group :: outer ∧ fault = ⟨.unterminatedGroup, group.opening⟩ := by
  unfold finish at h
  split at h
  next => simp at h
  next group outer hgroups => exact ⟨group, outer, hgroups, (Except.error.inj h).symm⟩

theorem follows_closings {blank : List Char} (hblank : AllBlank blank) (n : Nat) :
    Follows (blank ++ List.replicate n '}') := by
  cases n with
  | zero =>
      intro c hc
      simp [Text.trimStart_eq_nil hblank] at hc
  | succ n => exact follows_brace hblank (Or.inr rfl) _

theorem head_closings_not_name {blank : List Char} (hblank : AllBlank blank) (n : Nat) :
    ∀ c ∈ (blank ++ List.replicate n '}').head?, isNameChar c = false := by
  cases blank with
  | nil =>
      intro c hc
      have hbrace : c = '}' := by
        cases n with
        | zero => simp at hc
        | succ n => simpa [List.replicate_succ] using hc.symm
      rw [hbrace]
      decide
  | cons d tail =>
      intro c hc
      obtain rfl : d = c := by simpa using hc
      exact isNameChar_of_isBlank (hblank d List.mem_cons_self)

/-- Behind blanks the open groups may be closed. -/
theorem Cursor.instead_closings (c : Cursor) {blank : List Char} (hblank : AllBlank blank) :
    Instead Succeeds c (blank ++ List.replicate c.groups.length '}') where
  replaces := replaces_of_head (head_closings_not_name hblank _) _
  follows := follows_closings hblank _
  ends := Ends.closings hblank

/-- What was read before the point of failure can be closed. -/
theorem Cursor.exists_closings_of_fault (c : Cursor) {fault : Fault} (h : c.run = .error fault)
    (hreason : fault.reason ≠ .unterminatedGroup) :
    ∃ read n, c.rest = read ++ fault.rest ∧ fault.rest ≠ [] ∧
      Instead Succeeds c (read ++ List.replicate n '}') := by
  induction c using Cursor.run.induct with
  | case1 c found hstep =>
      rw [run_of_step_error hstep] at h
      obtain rfl := Except.error.inj h
      obtain ⟨before, hbefore, htrim⟩ := Text.exists_blank_append_trimStart c.rest
      obtain ⟨hrest, hcases⟩ := step_error_cases hstep
      refine ⟨before, c.groups.length, ?_, ?_, c.instead_closings hbefore⟩
      · rw [← hrest, htrim]
      · rcases hcases with ⟨tail, rfl, -⟩ | ⟨tail, rfl, -⟩ | ⟨first, tail, rfl⟩ <;> simp
  | case2 c hstep =>
      rw [run_of_step_end hstep] at h
      obtain ⟨group, outer, -, rfl⟩ := finish_error h
      exact absurd rfl hreason
  | case3 c next hstep _ ih =>
      rw [run_of_step hstep] at h
      obtain ⟨read, n, hread, hne, hinstead⟩ := ih h
      obtain ⟨taken, htaken, hback⟩ := instead_of_step hstep
      refine ⟨taken ++ read, n, by rw [htaken, hread, List.append_assoc], hne, ?_⟩
      simpa using hback _ _ hinstead

/-- A step that fails before a brace does so whatever comes behind the text. -/
theorem Cursor.instead_of_brace_error {c : Cursor} {fault : Fault} (h : c.step = .error fault)
    (hreason : fault.reason = .unmatchedClose ∨ fault.reason = .groupWithoutCall)
    (more : List Char) :
    Instead (· = .error ⟨fault.reason, fault.rest ++ more⟩) c (c.rest ++ more) := by
  obtain ⟨hrest, hcases⟩ := step_error_cases h
  obtain ⟨brace, tail, hbrace, hcons⟩ : ∃ brace tail, (brace = '{' ∨ brace = '}') ∧
      fault.rest = brace :: tail := by
    rcases hcases with ⟨tail, rfl, -⟩ | ⟨tail, rfl, -⟩ | ⟨first, tail, rfl⟩
    · exact ⟨'{', tail, Or.inl rfl, rfl⟩
    · exact ⟨'}', tail, Or.inr rfl, rfl⟩
    · simp at hreason
  obtain ⟨before, hbefore, htrim⟩ := Text.exists_blank_append_trimStart c.rest
  rw [hrest, hcons] at htrim
  have hmore : c.rest ++ more = before ++ brace :: (tail ++ more) := by simp [← htrim]
  have hstart : Text.trimStart (c.rest ++ more) = fault.rest ++ more := by
    rw [hmore, trimStart_brace hbefore hbrace, hcons]
    rfl
  constructor
  · rw [← htrim]
    intro d hd _
    cases before <;> simpa using hd
  · rw [hmore]
    exact follows_brace hbefore hbrace _
  · intro d hgroups hlast hd
    have hfault : d.step = .error ⟨fault.reason, fault.rest ++ more⟩ := by
      rcases hcases with ⟨tail, rfl, hnone⟩ | ⟨tail, rfl, hnone⟩ | ⟨first, tail, rfl⟩
      · have hdlast : d.last = none := by simpa [hnone] using hlast
        simp [step, hd, hstart, hdlast]
      · have hdgroups : d.groups = [] := by simpa [hnone] using hgroups
        simp [step, hd, hstart, hdgroups]
      · simp at hreason
    exact run_of_step_error hfault

/-- A brace that closes nothing, and a group without a call, are found whatever
comes behind them. -/
theorem Cursor.instead_of_brace_fault (c : Cursor) {fault : Fault} (h : c.run = .error fault)
    (hreason : fault.reason = .unmatchedClose ∨ fault.reason = .groupWithoutCall)
    (more : List Char) :
    Instead (· = .error ⟨fault.reason, fault.rest ++ more⟩) c (c.rest ++ more) := by
  induction c using Cursor.run.induct with
  | case1 c found hstep =>
      rw [run_of_step_error hstep] at h
      obtain rfl := Except.error.inj h
      exact instead_of_brace_error hstep hreason more
  | case2 c hstep =>
      rw [run_of_step_end hstep] at h
      obtain ⟨group, outer, -, rfl⟩ := finish_error h
      simp at hreason
  | case3 c next hstep _ ih =>
      rw [run_of_step hstep] at h
      obtain ⟨taken, htaken, hback⟩ := instead_of_step hstep
      rw [htaken, List.append_assoc]
      exact hback _ _ (ih h)

/-- Groups that are open at the end can be closed there. -/
theorem Cursor.exists_closings_of_unterminated (c : Cursor) {rest : List Char}
    (h : c.run = .error ⟨.unterminatedGroup, rest⟩) :
    ∃ n, 1 ≤ n ∧ Instead Succeeds c (c.rest ++ List.replicate n '}') := by
  induction c using Cursor.run.induct with
  | case1 c found hstep =>
      rw [run_of_step_error hstep] at h
      obtain rfl := Except.error.inj h
      obtain ⟨-, hcases⟩ := step_error_cases hstep
      simp at hcases
  | case2 c hstep =>
      rw [run_of_step_end hstep] at h
      obtain ⟨group, outer, hgroups, -⟩ := finish_error h
      have hblank : AllBlank c.rest :=
        List.dropWhile_eq_nil_iff.mp (trimStart_of_step_end hstep)
      exact ⟨c.groups.length, by simp [hgroups], c.instead_closings hblank⟩
  | case3 c next hstep _ ih =>
      rw [run_of_step hstep] at h
      obtain ⟨n, hn, hinstead⟩ := ih h
      obtain ⟨taken, htaken, hback⟩ := instead_of_step hstep
      refine ⟨n, hn, ?_⟩
      rw [htaken, List.append_assoc]
      exact hback _ _ hinstead

/-- The group that a run over a text leaves open was open before, with just the
inner groups closed by the text, or is opened by the text, which has a complete
schema behind its brace. -/
theorem Cursor.unterminated_cases (c : Cursor) {rest : List Char}
    (h : c.run = .error ⟨.unterminatedGroup, rest⟩) :
    (∃ inner group outer, c.groups = inner ++ group :: outer ∧ rest = group.opening ∧
      Ends Succeeds inner.length c.last.isSome c.rest) ∨
    ∃ read tail n, c.rest = read ++ rest ∧ rest = '{' :: tail ∧ Ends Succeeds 0 false tail ∧
      Instead Succeeds c (read ++ List.replicate n '}') := by
  induction c using Cursor.run.induct with
  | case1 c found hstep =>
      rw [run_of_step_error hstep] at h
      obtain rfl := Except.error.inj h
      obtain ⟨-, hcases⟩ := step_error_cases hstep
      simp at hcases
  | case2 c hstep =>
      rw [run_of_step_end hstep] at h
      obtain ⟨group, outer, hgroups, hfault⟩ := finish_error h
      refine Or.inl ⟨[], group, outer, hgroups, congrArg Fault.rest hfault, ?_⟩
      exact Ends.finish (trimStart_of_step_end hstep)
  | case3 c next hstep _ ih =>
      rw [run_of_step hstep] at h
      rcases ih h with ⟨inner, group, outer, hgroups, hopening, hends⟩ |
        ⟨read, tail, n, hread, hcons, hends, hinstead⟩
      · rcases step_cases hstep with ⟨place, tail, hplace, htext, rfl⟩ |
          ⟨closed, rest', tail, hclosed, htext, rfl⟩ | ⟨call, tail, hcall, rfl⟩
        · cases inner with
          | nil =>
              -- The group is the one that this step opens.
              obtain ⟨rfl, rfl⟩ := List.cons.inj hgroups
              obtain ⟨before, hbefore, htrim⟩ := Text.exists_blank_append_trimStart c.rest
              refine Or.inr ⟨before, tail, c.groups.length, ?_, hopening, hends,
                c.instead_closings hbefore⟩
              rw [hopening, ← htext, htrim]
          | cons first inner =>
              obtain ⟨-, hgroups⟩ := List.cons.inj hgroups
              refine Or.inl ⟨inner, group, outer, hgroups, hopening, ?_⟩
              rw [hplace]
              exact Ends.open_group htext hends
        · refine Or.inl ⟨closed :: inner, group, outer, ?_, hopening, ?_⟩
          · exact hclosed.trans (congrArg (closed :: ·) hgroups)
          · exact Ends.close_group htext hends
        · exact Or.inl ⟨inner, group, outer, hgroups, hopening, Ends.call hcall hends⟩
      · obtain ⟨taken, htaken, hback⟩ := instead_of_step hstep
        refine Or.inr ⟨taken ++ read, tail, n, by rw [htaken, hread, List.append_assoc], hcons,
          hends, ?_⟩
        simpa using hback _ _ hinstead

/-! Texts that do not compile. -/

theorem Reason.message_inj {r r' : Reason} (h : r.message = r'.message) : r = r' := by
  revert h
  cases r <;> cases r' <;> decide

theorem Ends.compileText {P : Except Fault Selection → Prop} {text : List Char}
    (h : Ends P 0 false text) : P (compileText text) :=
  h (.start text) rfl rfl rfl

/-- What is left where compilation fails, and how the text before it goes on. -/
theorem exists_closings_of_compileText {text : List Char} {fault : Fault}
    (h : compileText text = .error fault) :
    ∃ read n, text = read ++ fault.rest ∧ fault.rest ≠ [] ∧
      Succeeds (compileText (read ++ List.replicate n '}')) ∧
      (fault.reason = .unterminatedGroup → ∃ tail, fault.rest = '{' :: tail ∧
        Succeeds (compileText tail)) := by
  obtain ⟨reason, rest⟩ := fault
  by_cases hreason : reason = .unterminatedGroup
  · subst hreason
    rcases (Cursor.start text).unterminated_cases h with ⟨inner, group, outer, hgroups, -⟩ |
      ⟨read, tail, n, hread, rfl, hends, hinstead⟩
    · simp [Cursor.start] at hgroups
    · exact ⟨read, n, hread, by simp, hinstead.ends.compileText,
        fun _ => ⟨tail, rfl, hends.compileText⟩⟩
  · obtain ⟨read, n, hread, hne, hinstead⟩ :=
      (Cursor.start text).exists_closings_of_fault h hreason
    exact ⟨read, n, hread, hne, hinstead.ends.compileText, fun hsame => absurd hsame hreason⟩

end FieldQuery.Schema

namespace FieldQuery

open Schema

theorem compile_of_succeeds (schema : String) (h : Succeeds (compileText schema.toList)) :
    ∃ s, compile schema = .ok s := by
  obtain ⟨s, hs⟩ := h
  exact ⟨s, by rw [compile, hs]; rfl⟩

/-- So many closing braces. -/
def closings (n : Nat) : String := String.ofList (List.replicate n '}')

/-- A schema that does not compile is reported with a message and with what is
left of it, which is not empty; some closing braces complete what stands before
that. For an unterminated group what is left begins with the brace of the group,
everything behind it is complete, and closing braces complete the schema. Behind
an unmatched brace or a group without a call, the schema may go on as it likes. -/
theorem compile_eq_error {schema : String} {e : Failure} (h : compile schema = .error e) :
    ∃ message read rest, e = .parse message rest ∧ schema = read ++ rest ∧ rest ≠ "" ∧
      (∃ n s, compile (read ++ closings n) = .ok s) ∧
      (message = "unterminated group" →
        (∃ tail s, rest = "\x7b" ++ tail ∧ compile tail = .ok s) ∧
        ∃ n s, 1 ≤ n ∧ compile (schema ++ closings n) = .ok s) ∧
      (message = "unmatched '\x7d'" ∨ message = "group without a preceding call" →
        ∀ more, compile (schema ++ more) = .error (.parse message (rest ++ more))) := by
  obtain ⟨fault, htext, rfl⟩ : ∃ fault, compileText schema.toList = .error fault ∧
      fault.failure = e := by
    unfold compile at h
    cases hresult : compileText schema.toList with
    | error fault => exact ⟨fault, rfl, by simpa [hresult, Except.mapError] using h⟩
    | ok s => simp [hresult, Except.mapError] at h
  obtain ⟨read, n, hread, hne, hclosed, hgroup⟩ := exists_closings_of_compileText htext
  refine ⟨fault.reason.message, String.ofList read, String.ofList fault.rest, rfl, ?_, ?_,
    ⟨n, ?_⟩, ?_, ?_⟩
  · rw [← String.ofList_append, ← hread, String.ofList_toList]
  · simpa using hne
  · apply compile_of_succeeds
    simpa [closings] using hclosed
  · intro hmessage
    have hreason : fault.reason = .unterminatedGroup := Reason.message_inj hmessage
    obtain ⟨tail, hcons, htail⟩ := hgroup hreason
    constructor
    · obtain ⟨s, hs⟩ := compile_of_succeeds (String.ofList tail) (by simpa using htail)
      refine ⟨String.ofList tail, s, ?_, hs⟩
      rw [hcons, ← List.singleton_append, String.ofList_append]
    · have hrun : (Cursor.start schema.toList).run = .error ⟨.unterminatedGroup, fault.rest⟩ :=
        hreason ▸ htext
      obtain ⟨n, hn, hinstead⟩ := Cursor.exists_closings_of_unterminated _ hrun
      have hclosed : Succeeds (compileText (schema ++ closings n).toList) := by
        simpa [closings, Cursor.start] using hinstead.ends.compileText
      obtain ⟨s, hs⟩ := compile_of_succeeds _ hclosed
      exact ⟨n, s, hn, hs⟩
  · intro hmessage more
    have hreason : fault.reason = .unmatchedClose ∨ fault.reason = .groupWithoutCall := by
      rcases hmessage with hmessage | hmessage
      · exact Or.inl (Reason.message_inj hmessage)
      · exact Or.inr (Reason.message_inj hmessage)
    have hinstead := Cursor.instead_of_brace_fault _ htext hreason more.toList
    have hrun := hinstead.ends.compileText
    change compileText (schema.toList ++ more.toList) = _ at hrun
    rw [compile, String.toList_append, hrun]
    simp [Except.mapError, Fault.failure]

theorem compile_open_user :
    compile "user \x7b" = .error (.parse "unterminated group" "\x7b") := by
  have hcall : takeCall? ['u', 's', 'e', 'r', ' ', '{'] = some (.ofName "user", [' ', '{']) := by
    with_unfolding_all rfl
  have hrun : compileText ['u', 's', 'e', 'r', ' ', '{'] = .error ⟨.unterminatedGroup, ['{']⟩ := by
    have hblank : AllBlank [' '] := by simp [AllBlank, Text.isBlank]
    calc
      compileText _ = (Cursor.mk [.ofName "user"] [] (some 0) ([' '] ++ ['{'])).run :=
        Cursor.run_call (by decide) hcall [] [] none
      _ = (Cursor.mk [.ofName "user"] [] (some 0) ['{']).run := Cursor.run_blank hblank _ _ _ _
      _ = _ := Cursor.run_open _ _ _ _
      _ = .error ⟨.unterminatedGroup, ['{']⟩ := Cursor.run_of_step_end (Cursor.step_end rfl)
  have htext : "user \x7b".toList = ['u', 's', 'e', 'r', ' ', '{'] := by decide
  rw [compile, htext, hrun]
  rfl

/-- The open group can be closed, and what stands before it is complete. -/
theorem open_user_closed :
    compile "user \x7b" = .error (.parse "unterminated group" "\x7b") ∧
      (∃ n s, 1 ≤ n ∧ compile ("user \x7b" ++ closings n) = .ok s) ∧
      ∃ read n s, "user \x7b" = read ++ "\x7b" ∧ compile (read ++ closings n) = .ok s := by
  obtain ⟨message, read, rest, hfailure, hread, -, ⟨n, s, hclosed⟩, hgroup, -⟩ :=
    compile_eq_error compile_open_user
  obtain ⟨rfl, rfl⟩ := Failure.parse.inj hfailure
  exact ⟨compile_open_user, (hgroup rfl).2, read, n, s, hread, hclosed⟩

end FieldQuery
