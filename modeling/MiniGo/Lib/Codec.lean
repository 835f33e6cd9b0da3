/-
Readers of a sequence of symbols, and the two laws of a codec.

`Reads` says that what was written is read back whatever follows it; `Exact` says
that whatever is read was written in just that way, so that nothing has two
accepted encodings.
-/
import MiniGo.Lib.Result

namespace MiniGo.Codec

variable {ε β α γ : Type}

abbrev Reader (ε β α : Type) := StateT (List β) (Except ε) α

variable {first read : Reader ε β α} {next : α → Reader ε β γ} {input rest : List β} {value : α}
  {fits : List β → Prop} {write : α → List β} {values : List α}

theorem bind_eq_ok {result : γ × List β} : (first >>= next) input = .ok result ↔
      ∃ value rest, first input = .ok (value, rest) ∧ next value rest = .ok result := by
  change (first input >>= fun pair => next pair.1 pair.2) = .ok result ↔ _
  rw [Result.bind_eq_ok]
  exact ⟨fun ⟨⟨value, rest⟩, h⟩ => ⟨value, rest, h⟩, fun ⟨value, rest, h⟩ => ⟨(value, rest), h⟩⟩

/-- A reader that has succeeded hands its result and the remaining input on. -/
theorem bind_of_eq_ok (hf : first input = .ok (value, rest)) :
    (first >>= next) input = next value rest := by
  change (first input >>= fun pair => next pair.1 pair.2) = _
  rw [hf]
  rfl

theorem bind_of_eq_error {fault : ε} (hf : first input = .error fault) :
    (first >>= next) input = .error fault := by
  change (first input >>= fun res => next res.1 res.2) = _
  rw [hf]
  rfl

theorem pure_eq_ok {res : α} :
    (pure value : Reader ε β α) input = .ok (res, rest) ↔ value = res ∧ input = rest := by
  change Except.ok (value, input) = .ok (res, rest) ↔ _
  rw [Except.ok.injEq, Prod.mk.injEq]

theorem map_eq_ok {f : α → γ} {result : γ} : (f <$> read) input = .ok (result, rest) ↔
      ∃ value, read input = .ok (value, rest) ∧ f value = result := by
  change (do let pair ← read input; pure (f pair.1, pair.2)) = Except.ok (result, rest) ↔ _
  rw [Result.bind_eq_ok]
  constructor
  · rintro ⟨⟨value, other⟩, hr, heq⟩
    cases heq
    exact ⟨value, hr, rfl⟩
  · rintro ⟨value, hr, rfl⟩
    exact ⟨(value, rest), hr, rfl⟩

/-- What is written is read back, whatever follows. -/
def Reads (read : Reader ε β α) (write : α → List β) (value : α) : Prop :=
  ∀ rest, read (write value ++ rest) = .ok (value, rest)

/-- What is read was written. -/
def Exact (read : Reader ε β α) (write : α → List β) : Prop :=
  ∀ ⦃input value rest⦄, read input = .ok (value, rest) → input = write value ++ rest

theorem Reads.bind (hrd : Reads read write value) (next : α → Reader ε β γ) (rest : List β) :
    (read >>= next) (write value ++ rest) = next value rest :=
  bind_of_eq_ok (hrd rest)

/-- What is written is read back from an input that fits. -/
def ReadsOn (fits : List β → Prop) (read : Reader ε β α) (write : α → List β) (value : α) :
    Prop :=
  ∀ rest, fits (write value ++ rest) → read (write value ++ rest) = .ok (value, rest)

theorem Reads.on (hrd : Reads read write value) : ReadsOn fits read write value :=
  fun rest _ => hrd rest

theorem ReadsOn.bind (hrd : ReadsOn fits read write value) (hf : fits (write value ++ rest))
    (next : α → Reader ε β γ) : (read >>= next) (write value ++ rest) = next value rest :=
  bind_of_eq_ok (hrd rest hf)

/-- A chain of readings: the rest of an input that fits is read by what comes next. -/
theorem ReadsOn.followed (hc : ∀ first rest, fits (first ++ rest) → fits rest)
    {result : Except ε (γ × List β)} (hrd : ReadsOn fits read write value)
    (hf : fits (write value ++ rest)) (hnext : fits rest → next value rest = result) :
    (read >>= next) (write value ++ rest) = result :=
  (hrd.bind hf next).trans (hnext (hc _ _ hf))

/-- `count` things, one after the other. -/
def readMany (read : Reader ε β α) : Nat → Reader ε β (List α)
  | 0 => pure []
  | count + 1 => do
      let value ← read
      let values ← readMany read count
      pure (value :: values)

theorem readMany_readsOn (hc : ∀ first rest, fits (first ++ rest) → fits rest)
    (hrd : ∀ value ∈ values, ReadsOn fits read write value)
    (hf : fits (values.flatMap write ++ rest)) :
    readMany read values.length (values.flatMap write ++ rest) = .ok (values, rest) := by
  induction values with
  | nil => rfl
  | cons value values ih =>
    rw [List.forall_mem_cons] at hrd
    rw [List.flatMap_cons, List.append_assoc] at hf ⊢
    rw [List.length_cons, readMany, hrd.1.bind hf, bind_of_eq_ok (ih hrd.2 (hc _ _ hf))]
    rfl

theorem readMany_reads (hrd : ∀ value ∈ values, Reads read write value) (rest : List β) :
    readMany read values.length (values.flatMap write ++ rest) = .ok (values, rest) :=
  @readMany_readsOn _ _ _ read rest (fun _ => True) write values (fun _ _ _ => trivial)
    (fun value hv => (hrd value hv).on) trivial

theorem readMany_exact (he : Exact read write) {count : Nat}
    (hr : readMany read count input = .ok (values, rest)) :
    values.length = count ∧ input = values.flatMap write ++ rest := by
  induction count generalizing input values with
  | zero =>
    obtain ⟨rfl, rfl⟩ := pure_eq_ok.mp hr
    exact ⟨rfl, rfl⟩
  | succ count ih =>
    obtain ⟨value, mid, hv, hr⟩ := bind_eq_ok.mp hr
    obtain ⟨others, last, ho, hr⟩ := bind_eq_ok.mp hr
    obtain ⟨rfl, rfl⟩ := pure_eq_ok.mp hr
    obtain ⟨hlen, rfl⟩ := ih ho
    refine ⟨by rw [List.length_cons, hlen], ?_⟩
    rw [he hv, List.flatMap_cons, List.append_assoc]

end MiniGo.Codec
