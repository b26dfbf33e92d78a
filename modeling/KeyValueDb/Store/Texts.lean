/-
# The texts a store holds

Nothing in a store is made up: its keys, values, fields and elements are texts that some call
was given, or the decimal text of a counter.  So a property of texts that decimal texts have and
that all calls respect is a property of everything stored (`AllTexts.call`), and purging and
evicting only take texts away.
-/
import KeyValueDb.Store.KeyCount
import KeyValueDb.Store.Keys
import KeyValueDb.Store.Purge

namespace KeyValueDb

open Lib Function

namespace FlatStore

/-- Every text that the store holds has the property. -/
structure AllTexts (P : Bytes → Prop) (F : FlatStore) : Prop where
  strings : ∀ k e, F.strings k = some e → P k ∧ P e.value
  hashes : ∀ k m, F.hashes k = some m → P k ∧ ∀ f v, m f = some v → P f ∧ P v
  lists : ∀ k l, F.lists k = some l → P k ∧ ∀ x ∈ l, P x

variable {P : Bytes → Prop} {F : FlatStore} {key : Bytes} {now : Time}

theorem allTexts_empty (P : Bytes → Prop) : empty.AllTexts P where
  strings _ _ h := by cases h
  hashes _ _ h := by cases h
  lists _ _ h := by cases h

theorem AllTexts.putString (h : F.AllTexts P) {o : Option StoreEntry}
    (ho : ∀ e, o = some e → P key ∧ P e.value) : (F.putString key o).AllTexts P := by
  refine ⟨fun k e he => ?_, h.hashes, h.lists⟩
  by_cases hk : k = key
  · subst hk
    exact ho e (by simpa [FlatStore.putString] using he)
  · exact h.strings k e (by simpa [FlatStore.putString, update_of_ne hk] using he)

theorem AllTexts.putHash (h : F.AllTexts P) {o : Option (Bytes → Option Bytes)}
    (ho : ∀ m, o = some m → P key ∧ ∀ f v, m f = some v → P f ∧ P v) :
    (F.putHash key o).AllTexts P := by
  refine ⟨h.strings, fun k m hm => ?_, h.lists⟩
  by_cases hk : k = key
  · subst hk
    exact ho m (by simpa [FlatStore.putHash] using hm)
  · exact h.hashes k m (by simpa [FlatStore.putHash, update_of_ne hk] using hm)

theorem AllTexts.putListAt (h : F.AllTexts P) {o : Option (List Bytes)}
    (ho : ∀ l, o = some l → P key ∧ ∀ x ∈ l, P x) : (F.putListAt key o).AllTexts P := by
  refine ⟨h.strings, h.hashes, fun k l hl => ?_⟩
  by_cases hk : k = key
  · subst hk
    exact ho l (by simpa [FlatStore.putListAt] using hl)
  · exact h.lists k l (by simpa [FlatStore.putListAt, update_of_ne hk] using hl)

theorem AllTexts.putList (h : F.AllTexts P) {list : List Bytes} (hkey : P key)
    (hlist : ∀ x ∈ list, P x) : (F.putList key list).AllTexts P := by
  refine h.putListAt fun l hl => ?_
  split at hl
  · cases hl
  · obtain rfl := Option.some.inj hl
    exact ⟨hkey, hlist⟩

theorem AllTexts.fieldsOf (h : F.AllTexts P) {f v : Bytes} (hf : F.fieldsOf key f = some v) :
    P f ∧ P v := by
  unfold FlatStore.fieldsOf at hf
  cases hm : F.hashes key with
  | none => rw [hm] at hf; cases hf
  | some m => rw [hm] at hf; exact (h.hashes key m hm).2 f v hf

theorem AllTexts.elemsOf (h : F.AllTexts P) {x : Bytes} (hx : x ∈ F.elemsOf key) : P x := by
  unfold FlatStore.elemsOf at hx
  cases hl : F.lists key with
  | none => rw [hl] at hx; cases hx
  | some l => rw [hl] at hx; exact (h.lists key l hl).2 x hx

/-- **One call.** -/
theorem AllTexts.call {c : Call} (h : F.AllTexts P) (hdecimal : ∀ n, P (stdToString n))
    (hc : ∀ t ∈ c.texts, P t) : (F.call now c).2.AllTexts P := by
  cases c with
  | set k v t =>
    refine h.putString fun e he => ?_
    obtain rfl := Option.some.inj he
    exact ⟨hc k (by simp [Call.texts]), hc v (by simp [Call.texts])⟩
  | get k =>
    simp only [FlatStore.call, FlatStore.get]
    split
    · exact h
    · rename_i e he
      split
      · exact h.putString fun _ hnone => by cases hnone
      · refine h.putString fun e' he' => ?_
        obtain rfl := Option.some.inj he'
        exact h.strings k e he
  | del k =>
    have herase : (F.call now (.del k)).2 =
        ((F.putString k none).putHash k none).putListAt k none :=
      rfl
    rw [herase]
    refine AllTexts.putListAt (AllTexts.putHash (h.putString ?_) ?_) ?_ <;>
      exact fun _ hnone => by cases hnone
  | expire k t =>
    simp only [FlatStore.call, FlatStore.expire]
    split
    · exact h
    · rename_i e he
      split
      · exact h.putString fun _ hnone => by cases hnone
      · split
        · refine h.putString fun e' he' => ?_
          obtain rfl := Option.some.inj he'
          exact h.strings k e he
        · exact h.putString fun _ hnone => by cases hnone
  | ttl k =>
    simp only [FlatStore.call, FlatStore.ttl]
    split
    · exact h
    · split
      · exact h
      · split
        · exact h.putString fun _ hnone => by cases hnone
        · exact h
  | incrBy k d =>
    have hkey : P k := hc k (by simp [Call.texts])
    simp only [FlatStore.call, FlatStore.incrBy]
    split
    · refine h.putString fun e he => ?_
      obtain rfl := Option.some.inj he
      exact ⟨hkey, hdecimal _⟩
    · split
      · refine h.putString fun e he => ?_
        obtain rfl := Option.some.inj he
        exact ⟨hkey, hdecimal _⟩
      · split
        · exact h
        · refine h.putString fun e he => ?_
          obtain rfl := Option.some.inj he
          exact ⟨hkey, hdecimal _⟩
  | clear => exact allTexts_empty P
  | hset k f v =>
    refine h.putHash fun m hm => ?_
    obtain rfl := Option.some.inj hm
    refine ⟨hc k (by simp [Call.texts]), fun f' v' hf => ?_⟩
    by_cases heq : f' = f
    · subst heq
      rw [update_self] at hf
      obtain rfl := Option.some.inj hf
      exact ⟨hc f' (by simp [Call.texts]), hc v (by simp [Call.texts])⟩
    · rw [update_of_ne heq] at hf
      exact h.fieldsOf hf
  | hdel k f =>
    simp only [FlatStore.call, FlatStore.hdel]
    split
    · exact h
    · rename_i fields hfields
      refine h.putHash fun m hm => ?_
      split at hm
      · cases hm
      · obtain rfl := Option.some.inj hm
        refine ⟨(h.hashes k fields hfields).1, fun f' v' hf => ?_⟩
        by_cases heq : f' = f
        · rw [heq, update_self] at hf
          cases hf
        · rw [update_of_ne heq] at hf
          exact (h.hashes k fields hfields).2 f' v' hf
  | lpush k v =>
    refine h.putList (hc k (by simp [Call.texts])) fun x hx => ?_
    rcases List.mem_cons.mp hx with rfl | hx
    · exact hc x (by simp [Call.texts])
    · exact h.elemsOf hx
  | rpush k v =>
    refine h.putList (hc k (by simp [Call.texts])) fun x hx => ?_
    rcases List.mem_append.mp hx with hx | hx
    · exact h.elemsOf hx
    · rw [List.mem_singleton.mp hx]
      exact hc v (by simp [Call.texts])
  | lpop k =>
    simp only [FlatStore.call, FlatStore.lpop]
    split
    · exact h
    · exact h.putList (hc k (by simp [Call.texts])) fun x hx => h.elemsOf (List.mem_of_mem_tail hx)
  | rpop k =>
    simp only [FlatStore.call, FlatStore.rpop]
    split
    · exact h
    · exact h.putList (hc k (by simp [Call.texts])) fun x hx =>
        h.elemsOf (List.mem_of_mem_dropLast hx)
  | «exists» | size | hget | hexists | hlen | hgetall | llen | lrange | getSnapshot => exact h

end FlatStore

open FlatStore

variable {P : Bytes → Prop} {hash : Bytes → Nat} {s s' : KeyValueStore}

/-- Where nothing is added to the strings and nothing else is touched. -/
theorem LosesStrings.allTexts (h : LosesStrings s s')
    (hstrings : ∀ i k e, (s'.shards i).stringMap.lookup k = some e →
      (s.shards i).stringMap.lookup k = some e) (htexts : (s.view hash).AllTexts P) :
    (s'.view hash).AllTexts P := by
  refine ⟨fun k e he => ?_, fun k m hm => ?_, fun k l hl => ?_⟩
  · exact htexts.strings k e (hstrings _ k e he)
  · rw [KeyValueStore.view_hashes, KeyValueStore.getShard, h.hashes] at hm
    exact htexts.hashes k m hm
  · rw [KeyValueStore.view_lists, KeyValueStore.getShard, h.lists] at hl
    exact htexts.lists k l hl

theorem allTexts_purge (order : IterOrder) (now : Time) (n : Nat)
    (h : (s.view hash).AllTexts P) :
    ((s.purgeExpiredKeys order now n).2.view hash).AllTexts P := by
  refine (losesStrings_purge order now n s).allTexts (fun i k e he => ?_) h
  rcases ((KeyValueStore.Purged.purge order now n s) i).strings k with heq | ⟨hnone, -⟩
  · rw [← heq]
    exact he
  · rw [hnone] at he
    cases he

theorem allTexts_evict (order : IterOrder) (sorter : SortOrder) (n : Nat)
    (h : (s.view hash).AllTexts P) : ((s.evictLruKeys order sorter n).2.view hash).AllTexts P :=
  (losesStrings_evict order sorter n s).allTexts (fun _ _ _ he => lookup_foldl_evictOne (0, s) he)
    h

/-- **Calls one after the other.** -/
theorem allTexts_makeCalls (hdecimal : ∀ n, P (stdToString n)) {calls : List Call}
    (hcalls : ∀ c ∈ calls, ∀ t ∈ c.texts, P t) (order : IterOrder) (now : Time)
    (h : (s.view hash).AllTexts P) :
    ((s.makeCalls hash order now calls).2.view hash).AllTexts P := by
  induction calls generalizing s with
  | nil => exact h
  | cons c cs ih =>
    refine ih (fun d hd => hcalls d (List.mem_cons_of_mem c hd)) ?_
    rw [s.view_call]
    exact h.call hdecimal (hcalls c List.mem_cons_self)

end KeyValueDb
