import FieldQuery.Host.Table
import FieldQuery.Proofs.Model.Mutation
import FieldQuery.Proofs.Number.Nearest

/-!
Listing in pages. Over a repository that lists windows of fixed records, the
pages one after the other are all the records, pages behind the last are empty,
and an offset that 64 bits cannot hold fails before the repository is read.
-/

namespace FieldQuery

variable {Obj σ : Type}

/-- In every state of a kind that its reads keep, the repository lists windows
of these records and counts them. -/
structure Repository.Lists (r : Repository Obj σ) (valid : σ → Prop)
    (records : List (Value Obj)) : Prop where
  list : ∀ {s : σ}, valid s → ∀ (offset limit : Nat) (hints : Hints), offset < Word.unsignedEnd →
    limit < Word.unsignedEnd → ∃ s',
      (r.list (some (offset, limit)) hints).exec s = (.ok ((records.drop offset).take limit), s') ∧
        valid s'
  count : ∀ {s : σ}, valid s → ∃ s', r.count.exec s = (.ok records.length, s') ∧ valid s'

namespace Model

/-- Answer with a page of records and their total. -/
def pageValue (total : Nat) (items : List (Value Obj)) : Value Obj :=
  .map [("total", .ofNat total), ("items", .list items)]

/-- An invocation that may read asks for a page, and for a size or leaves it to
the model. -/
structure Asks (m : Model Obj σ) (inv : Invocation Obj σ) (page size : Nat) : Prop where
  allowed : inv.ctx.authorizer .read (.type m.typeName) = true
  page : ∃ n : Int64, (inv.arg 0).asInt64? = some n ∧ n.toInt = page
  size : (inv.arg 1 = .null ∧ m.pageSize = size) ∨
    ∃ n : Int64, (inv.arg 1).asInt64? = some n ∧ n.toInt = size

variable {m : Model Obj σ} {inv : Invocation Obj σ} {page size : Nat}

theorem countArg_eq {what : String} {v : Value Obj} {n : Int64} (hv : v.asInt64? = some n)
    {count : Nat} (hn : n.toInt = count) : countArg what v = .ok count := by
  simp [countArg, hv, hn]

theorem countArg_error {what : String} {v : Value Obj}
    (hv : ∀ n : Int64, v.asInt64? = some n → n.toInt < 0) :
    countArg what v = .error (.operation (what ++ " must be a non-negative integer")) := by
  unfold countArg
  split
  next n hn => rw [if_neg (Int.not_le.mpr (hv n hn))]
  next => rfl

theorem exec_ofExcept {α : Type} (result : Except Failure α) (s : σ) :
    (Run.ofExcept result).exec s = (result, s) := rfl

/-- Lists a window of records. -/
def listWindow (m : Model Obj σ) (inv : Invocation Obj σ) (range : Nat × Nat) :
    Run σ (Value Obj) := do
  let items ← m.repository.list (some range) ((inv.hints.get? "items").getD [])
  let total ← m.repository.count
  return pageValue total items

theorem Asks.exec_listAll (h : m.Asks inv page size) (s : σ) :
    (m.listAll inv).exec s = (Run.ofExcept (window page size) >>= m.listWindow inv).exec s := by
  obtain ⟨n, hn, hpage⟩ := h.page
  unfold listAll
  rw [Run.exec_bind_ok (exec_authorize_allowed h.allowed s)]
  split
  next hnull => simp [hnull, Value.asInt64?] at hn
  next =>
    rw [countArg_eq hn hpage, Run.exec_bind_ok (exec_ofExcept _ s)]
    rcases h.size with ⟨hnull, hsize⟩ | ⟨k, hk, hsize⟩
    · rw [hnull, hsize]
      rfl
    · dsimp only
      split
      next hnull => simp [hnull, Value.asInt64?] at hk
      next =>
        rw [countArg_eq hk hsize, Run.exec_bind_ok (exec_ofExcept _ s)]
        rfl

theorem exec_listWindow {valid : σ → Prop} {records : List (Value Obj)}
    (hlists : m.repository.Lists valid records) {offset limit : Nat}
    (hoffset : offset < Word.unsignedEnd) (hlimit : limit < Word.unsignedEnd) {s : σ}
    (hs : valid s) : ∃ s', (m.listWindow inv (offset, limit)).exec s =
      (.ok (pageValue records.length ((records.drop offset).take limit)), s') ∧ valid s' := by
  obtain ⟨s₁, hlist, hs₁⟩ :=
    hlists.list hs offset limit ((inv.hints.get? "items").getD []) hoffset hlimit
  obtain ⟨s₂, hcount, hs₂⟩ := hlists.count hs₁
  refine ⟨s₂, ?_, hs₂⟩
  rw [listWindow, Run.exec_bind_ok hlist, Run.exec_bind_ok hcount]
  rfl

/-! One page. -/

section Page

variable {valid : σ → Prop} {records : List (Value Obj)}

theorem Asks.exec_page (h : m.Asks inv page size) (hlists : m.repository.Lists valid records)
    (hsize : size < Word.unsignedEnd) (hoffset : page * size < Word.unsignedEnd) {s : σ}
    (hs : valid s) : ∃ s', (m.listAll inv).exec s =
      (.ok (pageValue records.length ((records.drop (page * size)).take size)), s') ∧
        valid s' := by
  have hwindow : window page size = .ok (page * size, size) := if_pos hoffset
  rw [h.exec_listAll, hwindow, Run.exec_bind_ok (exec_ofExcept _ s)]
  exact exec_listWindow hlists hoffset hsize hs

/-- An offset out of range fails whatever the repository is. -/
theorem Asks.exec_out_of_range (h : m.Asks inv page size)
    (hoffset : Word.unsignedEnd ≤ page * size) (repository : Repository Obj σ) (s : σ) :
    (({ m with repository } : Model Obj σ).listAll inv).exec s =
      (.error (.operation ("page " ++ toString page ++ " is out of range")), s) := by
  have hother : ({ m with repository } : Model Obj σ).Asks inv page size :=
    ⟨h.allowed, h.page, h.size⟩
  have hwindow : window page size =
      .error (.operation ("page " ++ toString page ++ " is out of range")) :=
    if_neg (Nat.not_lt.mpr hoffset)
  rw [hother.exec_listAll, hwindow]
  rfl

theorem exec_listAll_no_page (hallowed : inv.ctx.authorizer .read (.type m.typeName) = true)
    (hpresent : (inv.arg 0).isNull = false)
    (hpage : ∀ n : Int64, (inv.arg 0).asInt64? = some n → n.toInt < 0) (s : σ) :
    (m.listAll inv).exec s =
      (.error (.operation "page must be a non-negative integer"), s) := by
  unfold listAll
  rw [Run.exec_bind_ok (exec_authorize_allowed hallowed s)]
  split
  next hnull => simp [hnull, Value.isNull] at hpresent
  next =>
    rw [countArg_error hpage]
    rfl

end Page

/-! Pages one after the other. -/

/-- Pages from one on, asked for in order, are the records from its offset on. -/
theorem exec_pages {valid : σ → Prop} {records : List (Value Obj)}
    (hlists : m.repository.Lists valid records) (hsize : size < Word.unsignedEnd)
    {invs : List (Invocation Obj σ)} {first : Nat}
    (hasks : ∀ i inv, invs[i]? = some inv → m.Asks inv (first + i) size)
    (hoffset : ∀ i < invs.length, (first + i) * size < Word.unsignedEnd) {s : σ} (hs : valid s) :
    ∃ (windows : List (List (Value Obj))) (s' : σ), (invs.mapM m.listAll).exec s =
        (.ok (windows.map (pageValue records.length)), s') ∧ valid s' ∧
      windows.flatten = (records.drop (first * size)).take (invs.length * size) := by
  induction invs generalizing first s with
  | nil => exact ⟨[], s, rfl, hs, by simp⟩
  | cons inv rest ih =>
      obtain ⟨s₁, hpage, hs₁⟩ := (hasks 0 inv rfl).exec_page hlists hsize (hoffset 0 (by simp)) hs
      have hasks' : ∀ i inv, rest[i]? = some inv → m.Asks inv (first + 1 + i) size := by
        intro i inv hinv
        rw [Nat.add_assoc, Nat.add_comm 1 i]
        exact hasks (i + 1) inv hinv
      have hoffset' : ∀ i < rest.length, (first + 1 + i) * size < Word.unsignedEnd := by
        intro i hi
        rw [Nat.add_assoc, Nat.add_comm 1 i]
        exact hoffset (i + 1) (Nat.succ_lt_succ hi)
      obtain ⟨windows, s₂, hrest, hs₂, hwindows⟩ := ih hasks' hoffset' hs₁
      refine ⟨(records.drop (first * size)).take size :: windows, s₂, ?_, hs₂, ?_⟩
      · rw [List.mapM_cons, Run.exec_bind_ok hpage, Run.exec_bind_ok hrest]
        rfl
      · rw [List.flatten_cons, hwindows, Nat.add_mul, Nat.one_mul, ← List.drop_drop,
          List.length_cons, Nat.add_mul, Nat.one_mul, Nat.add_comm (rest.length * size),
          List.take_add]

/-- As many pages as it takes are all the records. -/
theorem exec_all_pages {valid : σ → Prop} {records : List (Value Obj)}
    (hlists : m.repository.Lists valid records) (hcount : records.length < Word.unsignedEnd)
    (hpositive : 0 < size) (hsize : size < Word.unsignedEnd) {invs : List (Invocation Obj σ)}
    (hlength : invs.length = (records.length + size - 1) / size)
    (hasks : ∀ page inv, invs[page]? = some inv → m.Asks inv page size) {s : σ} (hs : valid s) :
    ∃ (windows : List (List (Value Obj))) (s' : σ), (invs.mapM m.listAll).exec s =
        (.ok (windows.map (pageValue records.length)), s') ∧ valid s' ∧
      windows.flatten = records := by
  have hlast : ∀ i < invs.length, (0 + i) * size < Word.unsignedEnd := by
    intro i hi
    have hbefore : (i + 1) * size ≤ records.length + size - 1 := by
      rw [hlength] at hi
      exact (Nat.le_div_iff_mul_le hpositive).mp hi
    rw [Nat.add_mul] at hbefore
    rw [Nat.zero_add]
    omega
  have henough : records.length ≤ invs.length * size := by
    have hceiling : (records.length + size - 1) / size < invs.length + 1 := by omega
    rw [Nat.div_lt_iff_lt_mul hpositive, Nat.add_mul] at hceiling
    omega
  obtain ⟨windows, s', hrun, hs', hwindows⟩ := exec_pages hlists hsize
    (fun i inv hinv => (Nat.zero_add i).symm ▸ hasks i inv hinv) hlast hs
  refine ⟨windows, s', hrun, hs', ?_⟩
  rw [hwindows, Nat.zero_mul, List.drop_zero, List.take_of_length_le henough]

/-- Listing pages of a size over fixed records, with `read` allowed. -/
structure Paged (m : Model Obj σ) (valid : σ → Prop) (records : List (Value Obj)) (size : Nat) :
    Prop where
  /-- The pages from the first to the last, in order, are the records. -/
  complete : ∀ invs : List (Invocation Obj σ), invs.length = (records.length + size - 1) / size →
    (∀ page inv, invs[page]? = some inv → m.Asks inv page size) → ∀ s, valid s →
    ∃ (windows : List (List (Value Obj))) (s' : σ), (invs.mapM m.listAll).exec s =
        (.ok (windows.map (pageValue records.length)), s') ∧ valid s' ∧ windows.flatten = records
  /-- A page behind the last is empty. -/
  beyond : ∀ inv page, m.Asks inv page size → records.length ≤ page * size →
    page * size < Word.unsignedEnd → ∀ s, valid s →
    ∃ s', (m.listAll inv).exec s = (.ok (pageValue records.length []), s') ∧ valid s'
  /-- An offset that 64 bits cannot hold fails, whatever the repository is. -/
  outOfRange : ∀ inv page, m.Asks inv page size → Word.unsignedEnd ≤ page * size →
    ∀ (repository : Repository Obj σ) (s : σ),
      (({ m with repository } : Model Obj σ).listAll inv).exec s =
        (.error (.operation ("page " ++ toString page ++ " is out of range")), s)
  /-- So does a page that is no signed word, or a negative one. -/
  noPage : ∀ inv : Invocation Obj σ, inv.ctx.authorizer .read (.type m.typeName) = true →
    (inv.arg 0).isNull = false →
    (∀ n : Int64, (inv.arg 0).asInt64? = some n → n.toInt < 0) →
    ∀ (repository : Repository Obj σ) (s : σ),
      (({ m with repository } : Model Obj σ).listAll inv).exec s =
        (.error (.operation "page must be a non-negative integer"), s)
  /-- The total is the number of records, if a signed word can hold it. -/
  total : records.length < Word.signedEnd →
    ∃ n : Int64, (Value.ofNat records.length : Value Obj) = .int n ∧ n.toInt = records.length
  /-- Else it is the floating-point number nearest to it. -/
  roundedTotal : Word.signedEnd ≤ records.length →
    ∃ x : Double, (Value.ofNat records.length : Value Obj) = .float x ∧
      x.IsNearest records.length

end Model

theorem Value.ofNat_eq_int {n : Nat} (h : n < Word.signedEnd) :
    (Value.ofNat n : Value Obj) = .int (Int64.ofNat n) ∧ (Int64.ofNat n).toInt = n :=
  ⟨if_pos h, Int64.toInt_ofNat_of_lt h⟩

theorem Value.ofNat_eq_float {n : Nat} (h : Word.signedEnd ≤ n) :
    (Value.ofNat n : Value Obj) = .float (.ofNat n) :=
  if_neg (Nat.not_lt.mpr h)

theorem Word.lt_unsignedEnd {n : Nat} (h : n < signedEnd) : n < unsignedEnd :=
  Nat.lt_trans h (by decide)

/-- Over a repository that lists windows of fixed records and counts them, every
model lists its records in pages, for every size of pages. -/
theorem Repository.Lists.paged {m : Model Obj σ} {valid : σ → Prop} {records : List (Value Obj)}
    {size : Nat} (hlists : m.repository.Lists valid records)
    (hcount : records.length < Word.unsignedEnd) (hpositive : 1 ≤ size)
    (hsize : size < Word.signedEnd) : m.Paged valid records size where
  complete invs hlength hasks s hs :=
    Model.exec_all_pages hlists hcount hpositive (Word.lt_unsignedEnd hsize) hlength hasks hs
  beyond inv page hasks hbehind hoffset s hs := by
    obtain ⟨s', hpage, hs'⟩ := hasks.exec_page hlists (Word.lt_unsignedEnd hsize) hoffset hs
    rw [List.drop_eq_nil_of_le hbehind, List.take_nil] at hpage
    exact ⟨s', hpage, hs'⟩
  outOfRange inv page hasks hoffset := hasks.exec_out_of_range hoffset
  noPage inv hallowed hpresent hpage repository :=
    Model.exec_listAll_no_page (m := { m with repository }) hallowed hpresent hpage
  total htotal := ⟨_, Value.ofNat_eq_int htotal⟩
  roundedTotal htotal := by
    have hpositive : 0 < records.length := Nat.lt_of_lt_of_le (by decide) htotal
    exact ⟨_, Value.ofNat_eq_float htotal, Double.isNearest_ofNat hpositive hcount⟩

namespace Host

/-- A table without failures, as long as it holds these rows. -/
theorem Table.lists (place : Nat) (object : Option String) (records : List (Value Record)) :
    (Table.mk place object none []).repository.Lists
      (fun w => w.tables[place]? = some records) records where
  list := by
    intro w hw offset limit hints _ _
    refine ⟨{ w with log := .list (some (offset, limit)) hints :: w.log }, ?_, hw⟩
    change (Except.ok (((w.tables[place]?.getD []).drop offset).take limit), _) = _
    rw [hw]
    rfl
  count := by
    intro w hw
    refine ⟨{ w with log := .count :: w.log }, ?_, hw⟩
    change (Except.ok (w.tables[place]?.getD []).length, _) = _
    rw [hw]
    rfl

namespace Archive

/-- Notes in pages of two. -/
def model : Model Record World :=
  (Model.ofRepository "Note" "note" "notes" (Table.mk 0 none none []).repository).withPageSize 2

def holding (records : List (Value Record)) : World := { World.empty with tables := [records] }

def ask (page size : Value Record) : Invocation Record World :=
  ⟨"notes", [page, size], [], .ofDomain Record.domain⟩

theorem asks_first : model.Asks (ask (.int 0) .null) 0 2 :=
  ⟨rfl, ⟨0, rfl, rfl⟩, Or.inl ⟨rfl, rfl⟩⟩

theorem asks_second : model.Asks (ask (.int 1) .null) 1 2 :=
  ⟨rfl, ⟨1, rfl, rfl⟩, Or.inl ⟨rfl, rfl⟩⟩

theorem three_notes_paged : ∃ (windows : List (List (Value Record))) (w : World),
    ([ask (.int 0) .null, ask (.int 1) .null].mapM model.listAll).exec
        (holding [.int 7, .int 8, .int 9]) = (.ok (windows.map (Model.pageValue 3)), w) ∧
      windows.flatten = [.int 7, .int 8, .int 9] := by
  have hpaged : model.Paged _ _ 2 := Repository.Lists.paged
    (Table.lists 0 none [.int 7, .int 8, .int 9]) (by decide) (by decide) (by decide)
  have hasks : ∀ page inv, [ask (.int 0) .null, ask (.int 1) .null][page]? = some inv →
      model.Asks inv page 2 := by
    rintro (_ | _ | page) inv hinv
    · obtain rfl := Option.some.inj hinv
      exact asks_first
    · obtain rfl := Option.some.inj hinv
      exact asks_second
    · simp at hinv
  obtain ⟨windows, w, hrun, -, hflatten⟩ :=
    hpaged.complete _ rfl hasks (holding [.int 7, .int 8, .int 9]) rfl
  exact ⟨windows, w, hrun, hflatten⟩

theorem first_of_many {n : Nat} (h : 1 ≤ n) :
    ∃ w, (model.listAll (ask (.int 0) (.int 1))).exec (holding (List.replicate n .null)) =
      (.ok (Model.pageValue n [.null]), w) := by
  have hasks : model.Asks (ask (.int 0) (.int 1)) 0 1 :=
    ⟨rfl, ⟨0, rfl, rfl⟩, Or.inr ⟨1, rfl, rfl⟩⟩
  have hheld : (holding (List.replicate n .null)).tables[0]? = some (List.replicate n .null) := rfl
  obtain ⟨w, hpage, -⟩ :=
    hasks.exec_page (Table.lists 0 none (List.replicate n .null)) (by decide) (by decide) hheld
  refine ⟨w, hpage.trans ?_⟩
  rw [List.length_replicate, Nat.zero_mul, List.drop_zero, List.take_replicate,
    Nat.min_eq_left h]
  rfl

/-- A page that no signed word can hold is refused although its offset is in
range, and a total beyond the signed words is rounded. -/
theorem far_page_refused :
    9223372036854775808 * 1 < Word.unsignedEnd ∧
    ((model.listAll (ask (.ofNat 9223372036854775808) (.int 1))).exec (holding [.null])).1 =
      .error (.operation "page must be a non-negative integer") ∧
    ∃ w, (model.listAll (ask (.int 0) (.int 1))).exec
        (holding (List.replicate 9223372036854775809 .null)) =
      (.ok (Model.pageValue 9223372036854775808 [.null]), w) := by
  refine ⟨by decide, rfl, ?_⟩
  have htotal : (Value.ofNat 9223372036854775809 : Value Record) =
      .ofNat 9223372036854775808 := by
    have hsame : Double.ofNat 9223372036854775809 = .ofNat 9223372036854775808 := by decide
    exact congrArg Value.float hsame
  obtain ⟨w, hpage⟩ := first_of_many (by decide : 1 ≤ 9223372036854775809)
  refine ⟨w, hpage.trans ?_⟩
  rw [Model.pageValue, Model.pageValue, htotal]

end Archive

end Host

end FieldQuery
