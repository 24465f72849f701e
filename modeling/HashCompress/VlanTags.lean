import HashCompress.FrameHops

/-! `vlan_tag_push` and `vlan_tag_pop` of `common/rewrite_helpers.h`, called with the Ethernet header at
the start of the frame. The tags behind the two addresses are a stack; the parser reads its top two
and the tagger loses sight of the packet below a third. -/
namespace HashCompress.VlanTags
open ParsingHelpers OptionInsert XdpProgram PacketPreservation HashVerifier FrameHops

/-- The return value and the frame afterwards. `adjust` tells whether `bpf_xdp_adjust_head(ctx, 4)`
succeeds. -/
def vlanTagPop (adjust : Bool) (f : Frame) : ℤ × Frame :=
  if protoIsVlan (load16 f 12) = false then (-1, f)
  else if 14 + 4 > f.length then (-1, f)
  else
    let vlid := bpfNtohs (load16 f 14)
    let hProto := load16 f 16
    let ethCpy := f.take 14
    if adjust = false then (-1, f)
    else
      let f := f.drop 4
      if 14 > f.length then (-1, f)
      else (vlid.toNat, store16 (store f 0 ethCpy) 12 hProto)

/-- `adjust` is the outcome of `bpf_xdp_adjust_head(ctx, -4)`: failure, or the bytes before the frame. -/
def vlanTagPush (adjust : Option (Vector UInt8 4)) (f : Frame) (vlid : ℤ) : ℤ × Frame :=
  let ethCpy := f.take 14
  match adjust with
  | none => (-1, f)
  | some room =>
      let f := room.toList ++ f
      if 14 > f.length then (-1, f)
      else
        let f := store f 0 ethCpy
        if 14 + 4 > f.length then (-1, f)
        else
          let f := store16 f 14 (bpfHtons (UInt16.ofInt vlid))
          let f := store16 f 16 (load16 f 12)
          (0, store16 f 12 (bpfHtons ethP8021Q))

inductive Call where
  | push (adjust : Option (Vector UInt8 4)) (vlid : ℤ)
  | pop (adjust : Bool)

def Call.onFrame : Call → Frame → ℤ × Frame
  | .push adjust vlid, f => vlanTagPush adjust f vlid
  | .pop adjust, f => vlanTagPop adjust f

/-- The return values of a sequence of calls and the frame they leave. -/
def calls : List Call → Frame → List ℤ × Frame
  | [], f => ([], f)
  | c :: cs, f => ((c.onFrame f).1 :: (calls cs (c.onFrame f).2).1, (calls cs (c.onFrame f).2).2)

/-- What a call is for: the identifiers, newest first, as a stack of 16-bit numbers. -/
def Call.onStack : Call → List UInt16 → ℤ × List UInt16
  | .push none _, s => (-1, s)
  | .push (some _) vlid, s => (0, UInt16.ofInt vlid :: s)
  | .pop _, [] => (-1, [])
  | .pop false, s => (-1, s)
  | .pop true, v :: s => (v.toNat, s)

def stackCalls : List Call → List UInt16 → List ℤ × List UInt16
  | [], s => ([], s)
  | c :: cs, s =>
      ((c.onStack s).1 :: (stackCalls cs (c.onStack s).2).1, (stackCalls cs (c.onStack s).2).2)

/-- The four bytes of a tag, type first. -/
def tagBytes (v : UInt16) : List UInt8 :=
  [0x81, 0x00, UInt8.ofNat (v.toNat / 256), UInt8.ofNat v.toNat]

/-- A tag behind the two addresses. -/
def withTag (v : UInt16) (f : Frame) : Frame := f.take 12 ++ (tagBytes v ++ f.drop 12)

def stacked (s : List UInt16) (f : Frame) : Frame := s.foldr withTag f

lemma bpfHtons_bytes (v : UInt16) : UInt8.ofNat (bpfHtons v).toNat = UInt8.ofNat (v.toNat / 256) ∧
    UInt8.ofNat ((bpfHtons v).toNat / 256) = UInt8.ofNat v.toNat := by
  have hv := v.toNat_lt
  have h : (bpfHtons v).toNat = v.toNat % 256 * 256 + v.toNat / 256 := by
    rw [bpfHtons, bpfNtohs, UInt16.toNat_ofNat', Nat.mod_eq_of_lt (by omega)]
  have hhigh : v.toNat / 256 < 256 := by omega
  rw [h, Nat.mul_comm, Nat.mul_add_div (by norm_num), Nat.div_eq_of_lt hhigh]
  constructor
  · apply UInt8.toNat_inj.mp
    rw [UInt8.toNat_ofNat', UInt8.toNat_ofNat']
    omega
  · apply UInt8.toNat_inj.mp
    rw [UInt8.toNat_ofNat', UInt8.toNat_ofNat']
    omega

/-- The two addresses, the type field and the rest. -/
lemma link_split {f : Frame} (h : 14 ≤ f.length) : ∃ e a b l, e.length = 12 ∧ f = e ++ a :: b :: l := by
  refine ⟨f.take 12, f[12], f[13], f.drop 14, by rw [List.length_take]; omega, ?_⟩
  rw [← List.drop_eq_getElem_cons, ← List.drop_eq_getElem_cons, List.take_append_drop]

lemma withTag_append {e : Frame} (he : e.length = 12) (v : UInt16) (l : Frame) :
    withTag v (e ++ l) = e ++ (tagBytes v ++ l) := by
  rw [withTag, List.take_left' he, List.drop_left' he]

lemma take_link {e : Frame} (he : e.length = 12) (a b : UInt8) (l : Frame) :
    (e ++ a :: b :: l).take 14 = e ++ [a, b] := by
  rw [List.take_append, List.take_of_length_le (by omega), he]
  rfl

/-- The copied header in its new place. -/
lemma store_link {e : Frame} (he : e.length = 12) (a b : UInt8) (f : Frame) :
    store f 0 (e ++ [a, b]) = e ++ a :: b :: f.drop 14 := by
  have hsize : 0 + (e ++ [a, b]).length = 14 := by rw [List.length_append, he]; rfl
  rw [store, hsize, List.take_zero, List.nil_append, List.append_assoc]
  rfl

lemma two_bytes {l : Frame} (h : l.length = 2) : ∃ x y, l = [x, y] := by
  match l, h with
  | [x, y], _ => exact ⟨x, y, rfl⟩

/-- With the head room granted a tag always goes in. -/
lemma vlanTagPush_some (room : Vector UInt8 4) {f : Frame} (h : 14 ≤ f.length) (vlid : ℤ) :
    vlanTagPush (some room) f vlid = (0, withTag (UInt16.ofInt vlid) f) := by
  obtain ⟨e, a, b, l, he, rfl⟩ := link_split h
  obtain ⟨x, y, hxy⟩ := two_bytes (l := e.drop 10) (by rw [List.length_drop]; omega)
  have hroom : room.toList.length = 4 := by simp
  -- behind the copied header stand the last four bytes of the old one
  have hdrop : (room.toList ++ (e ++ a :: b :: l)).drop 14 = x :: y :: a :: b :: l := by
    rw [List.drop_append, hroom, List.drop_of_length_le (by omega), List.nil_append,
      List.drop_append_of_le_length (by omega), hxy]
    rfl
  obtain ⟨h0, h1⟩ := bpfHtons_bytes (UInt16.ofInt vlid)
  obtain ⟨ha, hb⟩ := load16_split
    (store16 (a :: b :: x :: y :: a :: b :: l) 2 (bpfHtons (UInt16.ofInt vlid))) 0
  simp only [vlanTagPush, take_link he, store_link he, hdrop]
  rw [if_neg (by simp; omega), if_neg (by simp; omega), store16_append_right he _ 2,
    store16_append_right he _ 4, store16_append_right he _ 0, load16_append_right he _ 0,
    withTag_append he]
  simp only [store16] at ha hb ⊢
  rw [ha, hb, h0, h1]
  rfl

@[simp] lemma withTag_length (v : UInt16) {f : Frame} (h : 14 ≤ f.length) :
    (withTag v f).length = f.length + 4 := by
  rw [withTag, List.length_append, List.length_append, List.length_take, List.length_drop]
  simp only [tagBytes, List.length_cons, List.length_nil]
  omega

/-- The outermost tag of a frame. -/
lemma withTag_fields (v : UInt16) {f : Frame} (h : 14 ≤ f.length) :
    load16 (withTag v f) 12 = bpfHtons ethP8021Q ∧ load16 (withTag v f) 14 = bpfHtons v ∧
      ∀ i, load16 (withTag v f) (16 + i) = load16 f (12 + i) := by
  obtain ⟨e, a, b, l, he, rfl⟩ := link_split h
  obtain ⟨h0, h1⟩ := bpfHtons_bytes v
  rw [withTag_append he]
  refine ⟨(load16_append_right he _ 0).trans rfl, ?_, fun i => ?_⟩
  · exact (load16_append_right he _ 2).trans (load16_eq h0.symm h1.symm)
  · rw [show 16 + i = 12 + (4 + i) by omega, load16_append_right he, load16_append_right he]
    exact load16_append_right rfl _ i

lemma vlanTagPop_withTag (v : UInt16) {f : Frame} (h : 14 ≤ f.length) :
    vlanTagPop true (withTag v f) = ((v.toNat : ℤ), f) := by
  obtain ⟨h12, h14, htail⟩ := withTag_fields v h
  have hlen := withTag_length v h
  have h16 : load16 (withTag v f) 16 = load16 f 12 := htail 0
  have hvlan : protoIsVlan (bpfHtons ethP8021Q) = true := by decide
  simp only [vlanTagPop, h12, h14, h16, hvlan, bpfNtohs_bpfHtons]
  rw [if_neg (by simp), if_neg (by omega), if_neg (by simp), if_neg (by rw [List.length_drop]; omega)]
  obtain ⟨e, a, b, l, he, rfl⟩ := link_split h
  have htake : (withTag v (e ++ a :: b :: l)).take 14 = e ++ [0x81, 0x00] := by
    rw [withTag_append he]
    exact take_link he _ _ _
  have hdrop : (withTag v (e ++ a :: b :: l)).drop 18 = l := by
    rw [withTag_append he, List.drop_append, List.drop_of_length_le (by omega), he]
    rfl
  obtain ⟨ha, hb⟩ := load16_split (a :: b :: l) 0
  rw [htake, store_link he, List.drop_drop, hdrop, store16_append_right he _ 0,
    load16_append_right he _ 0, store16, ha, hb]
  rfl

@[simp] lemma stacked_cons (v : UInt16) (s : List UInt16) (f : Frame) :
    stacked (v :: s) f = withTag v (stacked s f) := rfl

lemma stacked_length {f : Frame} (h : 14 ≤ f.length) (s : List UInt16) :
    14 ≤ (stacked s f).length := by
  induction s with
  | nil => exact h
  | cons v s ih =>
    rw [stacked_cons, withTag_length v ih]
    exact ih.trans (Nat.le_add_right _ 4)

/-- One call moves the frame as it moves the stack. -/
lemma onFrame_stacked {f : Frame} (h : 14 ≤ f.length) (hplain : protoIsVlan (load16 f 12) = false)
    (c : Call) (s : List UInt16) :
    c.onFrame (stacked s f) = ((c.onStack s).1, stacked (c.onStack s).2 f) := by
  have hs := stacked_length h s
  match c, s with
  | .push none vlid, s => rfl
  | .push (some room) vlid, s => exact vlanTagPush_some room hs vlid
  | .pop adjust, [] => simp [Call.onFrame, Call.onStack, stacked, vlanTagPop, hplain]
  | .pop false, v :: s =>
    simp only [Call.onFrame, Call.onStack, vlanTagPop]
    split_ifs <;> rfl
  | .pop true, v :: s => exact vlanTagPop_withTag v (stacked_length h s)

lemma calls_stacked {f : Frame} (h : 14 ≤ f.length) (hplain : protoIsVlan (load16 f 12) = false)
    (cs : List Call) (s : List UInt16) :
    calls cs (stacked s f) = ((stackCalls cs s).1, stacked (stackCalls cs s).2 f) := by
  induction cs generalizing s with
  | nil => rfl
  | cons c cs ih =>
    simp only [calls, stackCalls, onFrame_stacked h hplain c s]
    rw [ih (c.onStack s).2]

lemma stacked_type {f : Frame} (h : 14 ≤ f.length) (s : List UInt16) :
    load16 (stacked s f) 12 = if s = [] then load16 f 12 else bpfHtons ethP8021Q := by
  cases s with
  | nil => rfl
  | cons v s => simpa using (withTag_fields v (stacked_length h s)).1

/-- The parser walks over two tags at most, and keeps twelve bits of each identifier. -/
lemma parseEthhdrVlan_stacked {f : Frame} (h : 14 ≤ f.length)
    (hplain : protoIsVlan (load16 f 12) = false) (s : List UInt16) :
    parseEthhdrVlan (stacked s f) 0 = some ⟨14 + 4 * min 2 s.length,
      if s.length ≤ 2 then load16 f 12 else bpfHtons ethP8021Q, (s.take 2).map (· &&& 0x0fff)⟩ := by
  have hs := stacked_length h s
  have hvlan : protoIsVlan (bpfHtons ethP8021Q) = true := by decide
  rw [parseEthhdrVlan, if_neg (by omega), vlanMaxDepth]
  rcases s with _ | ⟨v, _ | ⟨w, s⟩⟩
  · simp [skipVlans, stacked, hplain]
  · obtain ⟨h12, h14, htail⟩ := withTag_fields v h
    have hlen := withTag_length v h
    have h16 : load16 (withTag v f) 16 = load16 f 12 := htail 0
    have hshort : ¬ f.length + 4 < 18 := by omega
    simp [skipVlans, stacked, hplain, h12, h14, h16, hvlan, hlen, bpfNtohs_bpfHtons, hshort]
  · have hg := stacked_length h s
    have hlen' := withTag_length w hg
    have hlen := withTag_length v (f := withTag w (stacked s f)) (by omega)
    obtain ⟨h12, h14, htail⟩ := withTag_fields v (f := withTag w (stacked s f)) (by omega)
    obtain ⟨h16, h18, htail'⟩ := withTag_fields w hg
    have h20 : load16 (withTag v (withTag w (stacked s f))) 20 =
        if s = [] then load16 f 12 else bpfHtons ethP8021Q := by
      rw [htail 4, htail' 0, stacked_type h s]
    rw [← htail 0] at h16
    rw [← htail 2] at h18
    have hshort : ¬ (stacked s f).length + 4 + 4 < 18 ∧ ¬ (stacked s f).length + 4 + 4 < 22 := by omega
    simp [skipVlans, h12, h14, h16, h18, h20, hvlan, hlen, hlen', bpfNtohs_bpfHtons, hshort]

end HashCompress.VlanTags
