import DecisionEngine.Concurrency.FirstWriteMap
import DecisionEngine.Proofs.Keyed
import Mathlib.Data.Finset.Card
import Mathlib.Data.Nat.Find
import Mathlib.Logic.Function.Basic
/-!
# Maps that keep first values

Whatever the hash is, also one that is the same for all keys, and however many buckets there are, a
map over buckets answers as a finite map does that keeps the first value of every key.

* `FirstWriteMap.Spread` — each entry is in the bucket of its key, which has no key twice.
* `FirstWriteMap.find?_push`, `FirstWriteMap.Spread.push` — what an entry changes.
* `FirstWriteMap.Call.answer` — the answers of a finite map, told without buckets.
* `FirstWriteMap.Represents.run`, `FirstWriteMap.Represents.inTurn` — one call, and calls in turn.
* `FirstWriteMap.keeps_first_writes` — what the map has answered, and has, after any calls.
-/

namespace DecisionEngine
namespace FirstWriteMap

variable {κ α σ τ : Type} {m : FirstWriteMap κ α} {key other : κ} {value : α}

/-! ## Buckets -/

theorem place_lt (m : FirstWriteMap κ α) (key : κ) : m.place key < m.buckets.length :=
  Nat.mod_lt _ m.nonempty

theorem getElem?_place (m : FirstWriteMap κ α) (key : κ) :
    m.buckets[m.place key]? = some (m.bucket key) := by
  rw [bucket, List.getD_eq_getElem?_getD, List.getElem?_eq_getElem (m.place_lt key)]
  rfl

theorem place_push (m : FirstWriteMap κ α) (key other : κ) (value : α) :
    (m.push key value).place other = m.place other := by
  simp only [place, push, List.length_set]

/-- Only the bucket of the key has another entry. -/
theorem getElem?_push (m : FirstWriteMap κ α) (key : κ) (value : α) (i : Nat) :
    (m.push key value).buckets[i]? =
      if m.place key = i then some ((key, value) :: m.bucket key) else m.buckets[i]? := by
  rw [push, List.getElem?_set]
  by_cases hplace : m.place key = i
  · rw [if_pos hplace, if_pos hplace, if_pos (hplace ▸ m.place_lt key)]
  · rw [if_neg hplace, if_neg hplace]

theorem bucket_push (m : FirstWriteMap κ α) (key other : κ) (value : α) :
    (m.push key value).bucket other =
      if m.place key = m.place other then (key, value) :: m.bucket key else m.bucket other := by
  have hpush := getElem?_push m key value (m.place other)
  rw [← place_push m key other value, getElem?_place, place_push] at hpush
  by_cases hplace : m.place key = m.place other
  · rw [if_pos hplace] at hpush ⊢
    exact Option.some.inj hpush
  · rw [if_neg hplace, getElem?_place] at hpush
    rw [if_neg hplace]
    exact Option.some.inj hpush

theorem eq_nil_of_empty {hash : κ → Nat} {bucketCount i : Nat} {bucket : List (κ × α)}
    (hbucket : (empty hash bucketCount : FirstWriteMap κ α).buckets[i]? = some bucket) :
    bucket = [] :=
  List.eq_of_mem_replicate (List.mem_of_getElem? hbucket)

/-- There is one entry more. -/
theorem length_flatten_push (m : FirstWriteMap κ α) (key : κ) (value : α) :
    (m.push key value).buckets.flatten.length = m.buckets.flatten.length + 1 := by
  have hset : ∀ bucket, m.buckets.set (m.place key) bucket =
      m.buckets.take (m.place key) ++ bucket :: m.buckets.drop (m.place key + 1) := fun bucket => by
    rw [List.set_eq_take_append_cons_drop, if_pos (m.place_lt key)]
  have hsplit := hset (m.bucket key)
  rw [← (List.getElem?_eq_some_iff.1 (m.getElem?_place key)).2, List.set_getElem_self,
    (List.getElem?_eq_some_iff.1 (m.getElem?_place key)).2] at hsplit
  have hbuckets : (m.push key value).buckets =
      m.buckets.set (m.place key) ((key, value) :: m.bucket key) := rfl
  rw [hbuckets, hset]
  conv_rhs => rw [hsplit]
  simp only [List.flatten_append, List.flatten_cons, List.length_append, List.length_cons]
  omega

/-- Buckets are visited one after another. -/
theorem forEach_eq (m : FirstWriteMap κ α) (visit : τ → κ → α → τ) (t : τ) :
    m.forEach visit t = m.buckets.flatten.foldl (fun t e => visit t e.1 e.2) t :=
  List.foldl_flatten.symm

/-- Each entry is in the bucket of its key, no bucket has a key twice, and the values that are
stored are counted. -/
structure Spread (m : FirstWriteMap κ α) : Prop where
  placed : ∀ (i : Nat) bucket, m.buckets[i]? = some bucket → ∀ e ∈ bucket, m.place e.1 = i
  once : ∀ (i : Nat) bucket, m.buckets[i]? = some bucket → Keyed.Distinct bucket
  counted : m.count = m.buckets.flatten.length

namespace Spread

theorem empty (hash : κ → Nat) (bucketCount : Nat) :
    Spread (FirstWriteMap.empty hash bucketCount : FirstWriteMap κ α) := by
  refine ⟨fun i bucket hbucket e he => ?_, fun i bucket hbucket => ?_, ?_⟩
  · rw [eq_nil_of_empty hbucket] at he
    cases he
  · rw [eq_nil_of_empty hbucket]
    exact List.nodup_nil
  · simp [FirstWriteMap.empty]

/-- No key is in two buckets, so none is visited twice. -/
theorem distinct (h : m.Spread) : Keyed.Distinct m.buckets.flatten := by
  rw [Keyed.Distinct, List.map_flatten, List.nodup_flatten]
  constructor
  · intro keys hkeys
    obtain ⟨bucket, hbucket, rfl⟩ := List.mem_map.1 hkeys
    obtain ⟨i, hi⟩ := List.mem_iff_getElem?.1 hbucket
    exact h.once i bucket hi
  · rw [List.pairwise_map, List.pairwise_iff_getElem]
    intro i j hi hj hij key hfirst hsecond
    obtain ⟨e, he, rfl⟩ := List.mem_map.1 hfirst
    obtain ⟨d, hd, hsame⟩ := List.mem_map.1 hsecond
    have hplace := h.placed i _ (List.getElem?_eq_getElem hi) e he
    have hplace' := h.placed j _ (List.getElem?_eq_getElem hj) d hd
    rw [hsame, hplace] at hplace'
    omega

end Spread

/-! ## Calls -/

/-- A call, by a user who has a state of its own that the making of a value looks at and changes. -/
inductive Call (κ α σ : Type) where
  | insertOrGet (key : κ) (value : α)
  | getOrCreate (key : κ) (make : σ → α × σ)
  | find (key : κ)

/-- What a call answers. -/
inductive Answer (α : Type) where
  | stored (value : α) (isNew : Bool)
  | made (value : α)
  | found (value : Option α)
  deriving DecidableEq

namespace Call

/-- The key for which a call stores a value unless it has one. -/
def stores? : Call κ α σ → Option κ
  | .insertOrGet key _ => some key
  | .getOrCreate key _ => some key
  | .find _ => none

/-- The keys for which values were to be stored. -/
def storedKeys (calls : List (Call κ α σ)) : List κ := calls.filterMap stores?

theorem mem_storedKeys_take {calls : List (Call κ α σ)} {i : Nat} :
    key ∈ storedKeys (calls.take i) ↔
      ∃ j < i, ∃ call, calls[j]? = some call ∧ call.stores? = some key := by
  rw [storedKeys, List.mem_filterMap]
  constructor
  · rintro ⟨call, hcall, hkey⟩
    obtain ⟨j, hj⟩ := List.mem_iff_getElem?.1 hcall
    rw [List.getElem?_take] at hj
    by_cases hji : j < i
    · rw [if_pos hji] at hj
      exact ⟨j, hji, call, hj, hkey⟩
    · rw [if_neg hji] at hj
      cases hj
  · rintro ⟨j, hji, call, hj, hkey⟩
    rw [← List.getElem?_take_of_lt hji] at hj
    exact ⟨call, List.mem_of_getElem? hj, hkey⟩

/-- Calls one after another, and their answers. -/
def inTurn (step : Call κ α σ → τ → Answer α × τ) : List (Call κ α σ) → τ → List (Answer α) × τ
  | [], t => ([], t)
  | call :: rest, t =>
    let (told, t) := step call t
    let (answers, t) := inTurn step rest t
    (told :: answers, t)

theorem inTurn_append (step : Call κ α σ → τ → Answer α × τ) (before after : List (Call κ α σ))
    (t : τ) :
    inTurn step (before ++ after) t =
      ((inTurn step before t).1 ++ (inTurn step after (inTurn step before t).2).1,
        (inTurn step after (inTurn step before t).2).2) := by
  induction before generalizing t with
  | nil => rfl
  | cons call rest ih => simp only [List.cons_append, inTurn, ih]

/-- A call is answered in the state that the calls before it have left. -/
theorem inTurn_getElem? (step : Call κ α σ → τ → Answer α × τ) {calls : List (Call κ α σ)} {i : Nat}
    {call : Call κ α σ} (hcall : calls[i]? = some call) (t : τ) :
    (inTurn step calls t).1[i]? = some (step call (inTurn step (calls.take i) t).2).1 ∧
      (inTurn step (calls.take (i + 1)) t).2 = (step call (inTurn step (calls.take i) t).2).2 := by
  induction calls generalizing i t with
  | nil => simp at hcall
  | cons first rest ih =>
    cases i with
    | zero =>
      obtain rfl : first = call := by simpa using hcall
      simp [inTurn]
    | succ i =>
      obtain ⟨hanswer, hstate⟩ := ih (by simpa using hcall) (step first t).2
      simp only [inTurn, List.take_succ_cons, List.getElem?_cons_succ]
      exact ⟨hanswer, hstate⟩

end Call

/-! ## Finding and storing -/

variable [DecidableEq κ]

theorem find?_eq (m : FirstWriteMap κ α) (key : κ) :
    m.find? key = Keyed.find? (m.bucket key) key :=
  rfl

/-- After an entry is put in, its key has the value, and every other key what it had. -/
theorem find?_push (m : FirstWriteMap κ α) (key other : κ) (value : α) :
    (m.push key value).find? other = if key = other then some value else m.find? other := by
  rw [find?_eq, bucket_push]
  by_cases hkey : key = other
  · subst hkey
    simp [Keyed.find?]
  · rw [if_neg hkey]
    by_cases hplace : m.place key = m.place other
    · rw [if_pos hplace, Keyed.find?, List.find?_cons_of_neg (by simpa using hkey), bucket, hplace]
      rfl
    · rw [if_neg hplace]
      rfl

namespace Spread

/-- What is found for a key is visited, and nothing else. -/
theorem mem_flatten_iff (h : m.Spread) :
    (key, value) ∈ m.buckets.flatten ↔ m.find? key = some value := by
  have hfind : m.find? key = some value ↔ (key, value) ∈ m.bucket key :=
    (h.once _ _ (m.getElem?_place key)).find?_eq_some_iff
  rw [hfind, List.mem_flatten]
  constructor
  · rintro ⟨bucket, hbucket, he⟩
    obtain ⟨i, hi⟩ := List.mem_iff_getElem?.1 hbucket
    have hplace := h.placed i bucket hi _ he
    have hsame := m.getElem?_place key
    rw [hplace, hi] at hsame
    rwa [← Option.some.inj hsame]
  · intro he
    exact ⟨_, List.mem_of_getElem? (m.getElem?_place key), he⟩

/-- A new key goes into its own bucket, which does not have it yet. -/
theorem push (h : m.Spread) (hnew : m.find? key = none) (value : α) :
    (m.push key value).Spread := by
  refine ⟨fun i bucket hbucket e he => ?_, fun i bucket hbucket => ?_, ?_⟩
  · rw [getElem?_push] at hbucket
    rw [place_push]
    by_cases hplace : m.place key = i
    · rw [if_pos hplace] at hbucket
      cases hbucket
      rcases List.mem_cons.1 he with rfl | he
      · exact hplace
      · exact (h.placed _ _ (m.getElem?_place key) e he).trans hplace
    · rw [if_neg hplace] at hbucket
      exact h.placed i bucket hbucket e he
  · rw [getElem?_push] at hbucket
    by_cases hplace : m.place key = i
    · rw [if_pos hplace] at hbucket
      cases hbucket
      exact List.nodup_cons.2 ⟨Keyed.find?_eq_none_iff.1 hnew, h.once _ _ (m.getElem?_place key)⟩
    · rw [if_neg hplace] at hbucket
      exact h.once i bucket hbucket
  · rw [length_flatten_push, ← h.counted]
    rfl

end Spread

namespace Call

/-- A call on a map over buckets. -/
def run : Call κ α σ → FirstWriteMap κ α × σ → Answer α × FirstWriteMap κ α × σ
  | .insertOrGet key value, (m, s) =>
    let ((value, isNew), m) := m.insertOrGet key value
    (.stored value isNew, m, s)
  | .getOrCreate key make, (m, s) =>
    let ((value, m), s) := m.getOrCreate key make s
    (.made value, m, s)
  | .find key, (m, s) => (.found (m.find? key), m, s)

/-- The call on a finite map, given by what it has for every key. -/
def answer : Call κ α σ → (κ → Option α) × σ → Answer α × (κ → Option α) × σ
  | .insertOrGet key value, (f, s) =>
    (.stored ((f key).getD value) (f key).isNone,
      Function.update f key (some ((f key).getD value)), s)
  | .getOrCreate key make, (f, s) =>
    match f key with
    | some known => (.made known, f, s)
    | none => (.made (make s).1, Function.update f key (some (make s).1), (make s).2)
  | .find key, (f, s) => (.found (f key), f, s)

variable {f : κ → Option α} {s : σ}

/-- Whatever is called, a value stays. -/
theorem answer_keeps (call : Call κ α σ) (s : σ) (hkey : f key = some value) :
    (call.answer (f, s)).2.1 key = some value := by
  cases call with
  | insertOrGet stored given =>
    by_cases h : key = stored
    · subst h
      simp [answer, hkey]
    · simp [answer, h, hkey]
  | getOrCreate stored make =>
    by_cases h : key = stored
    · subst h
      simp [answer, hkey]
    · cases hf : f stored <;> simp [answer, hf, h, hkey]
  | find sought => exact hkey

/-- A call gives a value to the key for which it stores one, and to no other. -/
theorem isSome_answer (call : Call κ α σ) (f : κ → Option α) (s : σ) (key : κ) :
    ((call.answer (f, s)).2.1 key).isSome ↔ (f key).isSome ∨ call.stores? = some key := by
  cases call with
  | insertOrGet stored given =>
    by_cases h : key = stored
    · simp [answer, stores?, h]
    · simp [answer, stores?, h, Ne.symm h]
  | getOrCreate stored make =>
    cases hf : f stored with
    | some known =>
      simp only [answer, hf, stores?, Option.some.injEq, iff_self_or]
      rintro rfl
      rw [hf]
      rfl
    | none =>
      by_cases h : key = stored
      · simp [answer, stores?, hf, h]
      · simp [answer, stores?, hf, h, Ne.symm h]
  | find sought => simp [answer, stores?]

/-- However many calls there are, a value stays. -/
theorem inTurn_answer_keeps (calls : List (Call κ α σ)) (hkey : f key = some value) (s : σ) :
    (inTurn answer calls (f, s)).2.1 key = some value := by
  induction calls generalizing f s with
  | nil => exact hkey
  | cons call rest ih => exact ih (answer_keeps call s hkey) _

theorem isSome_inTurn_answer (calls : List (Call κ α σ)) (f : κ → Option α) (s : σ) (key : κ) :
    ((inTurn answer calls (f, s)).2.1 key).isSome ↔ (f key).isSome ∨ key ∈ storedKeys calls := by
  induction calls generalizing f s with
  | nil => simp [inTurn, storedKeys]
  | cons call rest ih =>
    have hrest := ih (call.answer (f, s)).2.1 (call.answer (f, s)).2.2
    rw [isSome_answer, or_assoc] at hrest
    refine hrest.trans (or_congr_right ?_)
    simp only [storedKeys, List.mem_filterMap, List.mem_cons, exists_eq_or_imp]

end Call

/-! ## Maps over buckets and finite maps -/

/-- A map over buckets has for every key what a finite map has. -/
structure Represents (m : FirstWriteMap κ α) (f : κ → Option α) : Prop where
  spread : m.Spread
  finds : ∀ key, m.find? key = f key

namespace Represents

variable {f : κ → Option α}

theorem empty (hash : κ → Nat) (bucketCount : Nat) :
    (FirstWriteMap.empty hash bucketCount : FirstWriteMap κ α).Represents fun _ => none := by
  refine ⟨Spread.empty hash bucketCount, fun key => ?_⟩
  rw [find?_eq, eq_nil_of_empty (getElem?_place _ key)]
  rfl

theorem insertOrGet (h : m.Represents f) (key : κ) (value : α) :
    ∃ m' : FirstWriteMap κ α,
      m.insertOrGet key value = (((f key).getD value, (f key).isNone), m') ∧
        m'.Represents (Function.update f key (some ((f key).getD value))) := by
  have hfind := h.finds key
  cases hf : f key with
  | some known =>
    rw [hf] at hfind
    refine ⟨m, by simp [FirstWriteMap.insertOrGet, hfind], ?_⟩
    rw [Option.getD_some, ← hf, Function.update_eq_self]
    exact h
  | none =>
    rw [hf] at hfind
    refine ⟨m.push key value, by simp [FirstWriteMap.insertOrGet, hfind], h.spread.push hfind value,
      fun other => ?_⟩
    rw [find?_push, h.finds, Function.update_apply, Option.getD_none]
    simp only [eq_comm]

/-- A call is answered as by the finite map, and what it leaves has what the finite map has then. -/
theorem run (h : m.Represents f) (call : Call κ α σ) (s : σ) :
    ∃ m' : FirstWriteMap κ α,
      call.run (m, s) = ((call.answer (f, s)).1, m', (call.answer (f, s)).2.2) ∧
        m'.Represents (call.answer (f, s)).2.1 := by
  cases call with
  | insertOrGet key value =>
    obtain ⟨m', hrun, h'⟩ := h.insertOrGet key value
    exact ⟨m', by simp only [Call.run, Call.answer, hrun], h'⟩
  | getOrCreate key make =>
    have hfind := h.finds key
    cases hf : f key with
    | some known =>
      rw [hf] at hfind
      refine ⟨m, ?_, ?_⟩
      · simp only [Call.run, Call.answer, FirstWriteMap.getOrCreate, hfind, hf]
      · simpa only [Call.answer, hf] using h
    | none =>
      -- The value is made before the key is looked up once more, and nothing has come in between.
      rw [hf] at hfind
      obtain ⟨m', hrun, h'⟩ := h.insertOrGet key (make s).1
      rw [hf, Option.getD_none] at hrun h'
      refine ⟨m', ?_, ?_⟩
      · simp only [Call.run, Call.answer, FirstWriteMap.getOrCreate, hfind, hf, hrun]
      · simpa only [Call.answer, hf] using h'
  | find key => exact ⟨m, by simp only [Call.run, Call.answer, h.finds], h⟩

theorem inTurn (h : m.Represents f) (calls : List (Call κ α σ)) (s : σ) :
    ∃ m' : FirstWriteMap κ α,
      Call.inTurn Call.run calls (m, s) = ((Call.inTurn Call.answer calls (f, s)).1, m',
        (Call.inTurn Call.answer calls (f, s)).2.2) ∧
        m'.Represents (Call.inTurn Call.answer calls (f, s)).2.1 := by
  induction calls generalizing m f s with
  | nil => exact ⟨m, rfl, h⟩
  | cons call rest ih =>
    obtain ⟨m₁, hcall, h₁⟩ := h.run call s
    obtain ⟨m', hrest, h'⟩ := ih h₁ (call.answer (f, s)).2.2
    refine ⟨m', ?_, h'⟩
    simp only [Call.inTurn, hcall, hrest]

end Represents

/-! ## Maps that have been called -/

/-- Calls on a map over buckets that starts without entries. -/
def onBuckets (hash : κ → Nat) (bucketCount : Nat) (calls : List (Call κ α σ)) (s : σ) :
    List (Answer α) × FirstWriteMap κ α × σ :=
  Call.inTurn Call.run calls (FirstWriteMap.empty hash bucketCount, s)

/-- The calls on a finite map that starts without entries. -/
def onFiniteMap (calls : List (Call κ α σ)) (s : σ) : List (Answer α) × (κ → Option α) × σ :=
  Call.inTurn Call.answer calls (fun _ => none, s)

variable {calls : List (Call κ α σ)} {i : Nat}

theorem exists_onBuckets (hash : κ → Nat) (bucketCount : Nat) (calls : List (Call κ α σ)) (s : σ) :
    ∃ m : FirstWriteMap κ α,
      onBuckets hash bucketCount calls s =
        ((onFiniteMap calls s).1, m, (onFiniteMap calls s).2.2) ∧
        m.Represents (onFiniteMap calls s).2.1 :=
  (Represents.empty hash bucketCount).inTurn calls s

theorem isSome_onFiniteMap (calls : List (Call κ α σ)) (s : σ) (key : κ) :
    ((onFiniteMap calls s).2.1 key).isSome ↔ key ∈ Call.storedKeys calls := by
  refine (Call.isSome_inTurn_answer calls (fun _ => none) s key).trans ?_
  simp only [Option.isSome_none, Bool.false_eq_true, false_or]

/-- A call is answered from what the calls before it have left, and what it leaves is kept. -/
theorem onFiniteMap_at {call : Call κ α σ} (hcall : calls[i]? = some call) (s : σ) :
    (onFiniteMap calls s).1[i]? = some (call.answer (onFiniteMap (calls.take i) s).2).1 ∧
      (onFiniteMap (calls.take (i + 1)) s).2 = (call.answer (onFiniteMap (calls.take i) s).2).2 ∧
      ∀ key value, (call.answer (onFiniteMap (calls.take i) s).2).2.1 key = some value →
        (onFiniteMap calls s).2.1 key = some value := by
  obtain ⟨hanswer, hstate⟩ := Call.inTurn_getElem? Call.answer hcall (fun _ => none, s)
  refine ⟨hanswer, hstate, fun key value hvalue => ?_⟩
  have happend := Call.inTurn_append Call.answer (calls.take (i + 1)) (calls.drop (i + 1))
    (fun _ => none, s)
  rw [List.take_append_drop] at happend
  rw [onFiniteMap, happend]
  refine Call.inTurn_answer_keeps _ ?_ _
  exact (congrArg (fun t => t.1 key) hstate).trans hvalue

/-- An insertion answers the value that is kept, and `true` if no call before stored the key; then
the value is its own. -/
theorem insertOrGet_at (hcall : calls[i]? = some (.insertOrGet key value)) (s : σ) :
    ∃ kept isNew, (onFiniteMap calls s).1[i]? = some (.stored kept isNew) ∧
      (onFiniteMap calls s).2.1 key = some kept ∧
      (isNew = true ↔ key ∉ Call.storedKeys (calls.take i)) ∧ (isNew = true → kept = value) := by
  obtain ⟨hanswer, -, hkept⟩ := onFiniteMap_at hcall s
  refine ⟨_, _, hanswer, hkept _ _ (Function.update_self ..), ?_, fun hnew => ?_⟩
  · rw [← isSome_onFiniteMap (calls.take i) s, Bool.not_eq_true, Option.isNone_iff_eq_none,
      Option.isSome_eq_false_iff]
    exact Option.isNone_iff_eq_none.symm
  · rw [Option.isNone_iff_eq_none.1 hnew, Option.getD_none]

/-- The first call that stores a key is the only insertion of the key that `true` is answered to. -/
theorem existsUnique_insertOrGet (hcall : calls[i]? = some (.insertOrGet key value))
    (hbefore : ∀ j < i, ∀ make, calls[j]? ≠ some (.getOrCreate key make)) (s : σ) :
    ∃! j : Nat, ∃ first, calls[j]? = some (.insertOrGet key first) ∧
      (onFiniteMap calls s).1[j]? = some (.stored first true) := by
  classical
  have hstores : ∃ (j : Nat) (call : Call κ α σ),
      calls[j]? = some call ∧ call.stores? = some key := ⟨i, _, hcall, rfl⟩
  obtain ⟨call, hfirst, hkey⟩ := Nat.find_spec hstores
  have hle : Nat.find hstores ≤ i := Nat.find_min' hstores ⟨_, hcall, rfl⟩
  have hnone : key ∉ Call.storedKeys (calls.take (Nat.find hstores)) := fun hmem => by
    obtain ⟨j, hj, hstored⟩ := Call.mem_storedKeys_take.1 hmem
    exact Nat.find_min hstores hj hstored
  -- A call that is told that its key is new comes before all others that store the key.
  have hlater : ∀ j other, calls[j]? = some (.insertOrGet key other) →
      (onFiniteMap calls s).1[j]? = some (.stored other true) → j ≤ Nat.find hstores := by
    intro j other hj hanswer
    obtain ⟨kept, isNew, htold, -, hnew, -⟩ := insertOrGet_at hj s
    obtain ⟨-, rfl⟩ := Answer.stored.inj (Option.some.inj (htold.symm.trans hanswer))
    refine not_lt.1 fun hlt => hnew.1 rfl (Call.mem_storedKeys_take.2 ⟨_, hlt, call, hfirst, hkey⟩)
  cases call with
  | insertOrGet stored first =>
    cases hkey
    obtain ⟨kept, isNew, htold, -, hnew, hown⟩ := insertOrGet_at hfirst s
    obtain rfl := hnew.2 hnone
    obtain rfl := hown rfl
    refine ⟨_, ⟨kept, hfirst, htold⟩, ?_⟩
    rintro j ⟨other, hj, hanswer⟩
    exact le_antisymm (hlater j other hj hanswer) (Nat.find_min' hstores ⟨_, hj, rfl⟩)
  | getOrCreate stored make =>
    cases hkey
    rcases hle.lt_or_eq with hlt | heq
    · exact absurd hfirst (hbefore _ hlt make)
    · rw [heq, hcall] at hfirst
      cases hfirst
  | find sought => cases hkey

/-- A value is made only for a key that no call before stored; then it is kept. -/
theorem getOrCreate_at {make : σ → α × σ} (hcall : calls[i]? = some (.getOrCreate key make))
    (s : σ) :
    ∃ kept, (onFiniteMap calls s).1[i]? = some (.made kept) ∧
      (onFiniteMap calls s).2.1 key = some kept ∧
      if key ∈ Call.storedKeys (calls.take i) then
        (onFiniteMap (calls.take (i + 1)) s).2.2 = (onFiniteMap (calls.take i) s).2.2
      else
        make (onFiniteMap (calls.take i) s).2.2 =
          (kept, (onFiniteMap (calls.take (i + 1)) s).2.2) := by
  obtain ⟨hanswer, hstate, hkept⟩ := onFiniteMap_at hcall s
  have hkeys := isSome_onFiniteMap (calls.take i) s key
  cases hknown : (onFiniteMap (calls.take i) s).2.1 key with
  | some known =>
    simp only [Call.answer, hknown] at hanswer hstate hkept
    refine ⟨known, hanswer, hkept key known hknown, ?_⟩
    rw [if_pos (hkeys.1 (by rw [hknown]; rfl)), hstate]
  | none =>
    simp only [Call.answer, hknown] at hanswer hstate hkept
    refine ⟨_, hanswer, hkept key _ (Function.update_self ..), ?_⟩
    rw [if_neg fun hmem => by simpa [hknown] using hkeys.2 hmem, hstate]

/-- What is found is the value that is kept, once a call before has stored the key. -/
theorem find_at (hcall : calls[i]? = some (.find key)) (s : σ) :
    (onFiniteMap calls s).1[i]? = some (.found
      (if key ∈ Call.storedKeys (calls.take i) then (onFiniteMap calls s).2.1 key else none)) := by
  obtain ⟨hanswer, -, hkept⟩ := onFiniteMap_at hcall s
  rw [hanswer]
  have hkeys := isSome_onFiniteMap (calls.take i) s key
  by_cases hmem : key ∈ Call.storedKeys (calls.take i)
  · obtain ⟨known, hknown⟩ := Option.isSome_iff_exists.1 (hkeys.2 hmem)
    rw [if_pos hmem, hkept key known hknown]
    exact congrArg (some ∘ Answer.found) hknown
  · rw [if_neg hmem]
    exact congrArg (some ∘ Answer.found) (Option.not_isSome_iff_eq_none.1 (mt hkeys.1 hmem))

/-- A map that represents a finite map counts the keys that have values. -/
theorem Represents.size_eq {f : κ → Option α} (h : m.Represents f) {keys : List κ}
    (hkeys : ∀ key, (f key).isSome ↔ key ∈ keys) : m.size = keys.toFinset.card := by
  have hvisited : (m.buckets.flatten.map (·.1)).toFinset = keys.toFinset := by
    ext key
    rw [List.mem_toFinset, List.mem_toFinset, ← hkeys, ← h.finds, Option.isSome_iff_exists,
      List.mem_map]
    constructor
    · rintro ⟨e, he, rfl⟩
      exact ⟨e.2, h.spread.mem_flatten_iff.1 he⟩
    · rintro ⟨value, hvalue⟩
      exact ⟨(key, value), h.spread.mem_flatten_iff.2 hvalue, rfl⟩
  calc m.size = (m.buckets.flatten.map (·.1)).length := by
        rw [List.length_map, ← h.spread.counted]
        rfl
    _ = keys.toFinset.card := by rw [← hvisited, List.toFinset_card_of_nodup h.spread.distinct]

/-- Whatever the hash is and however many buckets there are, after any calls, one after another, a
map over buckets has answered as a finite map, and has for every key what the finite map has.

It visits every key that has a value, once and with its value, and its size is the number of the
keys for which values were to be stored.  The value of a key is from its first call that stores one:
every insertion answers it, and `true` just if no call before stored the key, so `true` is answered
to one insertion of a key unless its first value was made.  A value is made only for a key that no
call before stored; otherwise the state of the user stays. -/
theorem keeps_first_writes (hash : κ → Nat) (bucketCount : Nat) (calls : List (Call κ α σ))
    (s : σ) :
    ∃ (answers : List (Answer α)) (m : FirstWriteMap κ α) (f : κ → Option α) (s' : σ)
        (visited : List (κ × α)),
      onBuckets hash bucketCount calls s = (answers, m, s') ∧
      onFiniteMap calls s = (answers, f, s') ∧
      (∀ key, m.find? key = f key) ∧
      (∀ (τ : Type) (visit : τ → κ → α → τ) (t : τ),
        m.forEach visit t = visited.foldl (fun t e => visit t e.1 e.2) t) ∧
      (visited.map (·.1)).Nodup ∧
      (∀ key value, (key, value) ∈ visited ↔ f key = some value) ∧
      m.size = (Call.storedKeys calls).toFinset.card ∧
      (∀ (i : Nat) key value, calls[i]? = some (.insertOrGet key value) →
        (∃ kept isNew, answers[i]? = some (.stored kept isNew) ∧ f key = some kept ∧
          (isNew = true ↔ key ∉ Call.storedKeys (calls.take i)) ∧ (isNew = true → kept = value)) ∧
        ((∀ j < i, ∀ make, calls[j]? ≠ some (.getOrCreate key make)) →
          ∃! j : Nat, ∃ first, calls[j]? = some (.insertOrGet key first) ∧
            answers[j]? = some (.stored first true))) ∧
      (∀ (i : Nat) key make, calls[i]? = some (.getOrCreate key make) →
        ∃ kept, answers[i]? = some (.made kept) ∧ f key = some kept ∧
          if key ∈ Call.storedKeys (calls.take i) then
            (onBuckets hash bucketCount (calls.take (i + 1)) s).2.2 =
              (onBuckets hash bucketCount (calls.take i) s).2.2
          else
            make (onBuckets hash bucketCount (calls.take i) s).2.2 =
              (kept, (onBuckets hash bucketCount (calls.take (i + 1)) s).2.2)) ∧
      ∀ (i : Nat) key, calls[i]? = some (.find key) →
        answers[i]? = some
          (.found (if key ∈ Call.storedKeys (calls.take i) then f key else none)) := by
  have hstate : ∀ calls : List (Call κ α σ),
      (onBuckets hash bucketCount calls s).2.2 = (onFiniteMap calls s).2.2 := fun calls => by
    obtain ⟨m, hrun, -⟩ := exists_onBuckets hash bucketCount calls s
    rw [hrun]
  obtain ⟨m, hrun, hm⟩ := exists_onBuckets hash bucketCount calls s
  refine ⟨(onFiniteMap calls s).1, m, (onFiniteMap calls s).2.1, (onFiniteMap calls s).2.2,
    m.buckets.flatten, hrun, rfl, hm.finds, fun τ visit t => forEach_eq m visit t,
    hm.spread.distinct, fun key value => ?_, hm.size_eq (isSome_onFiniteMap calls s),
    fun i key value hcall => ?_, fun i key make hcall => ?_, fun i key hcall => find_at hcall s⟩
  · rw [hm.spread.mem_flatten_iff, hm.finds]
  · exact ⟨insertOrGet_at hcall s, fun hbefore => existsUnique_insertOrGet hcall hbefore s⟩
  · rw [hstate, hstate]
    exact getOrCreate_at hcall s

/-- All keys in one bucket: the second value for `1` is not stored, nor is one made for `2`. -/
example :
    onBuckets (fun _ => 0) 0 [.insertOrGet 1 'a', .insertOrGet 2 'b', .insertOrGet 1 'c',
      .getOrCreate 2 (fun made => ('d', made + 1)), .getOrCreate 3 (fun made => ('e', made + 1)),
      .find 1, .find 4] 0 =
    ([.stored 'a' true, .stored 'b' true, .stored 'a' false, .made 'b', .made 'e', .found 'a',
      .found none], (((empty (fun _ => 0) 0).push 1 'a').push 2 'b').push 3 'e', 1) := by
  rfl

end FirstWriteMap
end DecisionEngine
