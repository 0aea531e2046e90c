import BlockchainTutorial.Bitcoin.Wire
import BlockchainTutorial.Lib.Delimited

namespace BlockchainTutorial.Bitcoin

/-! An encoding of every type that is stored or sent. As with `gob`, the fields of a value
stand one after another, and what is encoded can be decoded. -/

open Lib (Delimited)

def Codec.ofDelimited {α : Type} (p : Delimited UInt8 α) : Codec α where
  encode := p.write
  decode data := (p.read data).map Prod.fst
  decode_encode := p.read_write_self

namespace Encoding

open Lib.Delimited

def txInput : Delimited UInt8 TXInput :=
  (bytes.pair (int.pair (bytes.pair bytes))).imap (fun f => ⟨f.1, f.2.1, f.2.2.1, f.2.2.2⟩)
    (fun vin => (vin.txid, vin.vout, vin.signature, vin.pubKey)) fun _ => rfl

def txOutput : Delimited UInt8 TXOutput :=
  (int.pair bytes).imap (fun f => ⟨f.1, f.2⟩) (fun out => (out.value, out.pubKeyHash)) fun _ => rfl

def transaction : Delimited UInt8 Transaction :=
  (bytes.pair ((list nat txInput).pair (list nat txOutput))).imap
    (fun f => ⟨f.1, f.2.1, f.2.2⟩) (fun tx => (tx.id, tx.vin, tx.vout)) fun _ => rfl

def block : Delimited UInt8 Block :=
  (int.pair ((list nat transaction).pair (bytes.pair (bytes.pair (int.pair int))))).imap
    (fun f => ⟨f.1, f.2.1, f.2.2.1, f.2.2.2.1, f.2.2.2.2.1, f.2.2.2.2.2⟩)
    (fun b => (b.timestamp, b.transactions, b.prevBlockHash, b.hash, b.nonce, b.height))
    fun _ => rfl

end Encoding

open Lib.Delimited in
def encodings : Codecs where
  addr := .ofDelimited ((list nat string).imap Wire.Addr.mk Wire.Addr.addrList fun _ => rfl)
  block := .ofDelimited ((string.pair bytes).imap (fun f => ⟨f.1, f.2⟩)
    (fun payload => (payload.addrFrom, payload.block)) fun _ => rfl)
  getblocks := .ofDelimited (string.imap Wire.GetBlocks.mk Wire.GetBlocks.addrFrom fun _ => rfl)
  getdata := .ofDelimited ((string.pair (string.pair bytes)).imap
    (fun f => ⟨f.1, f.2.1, f.2.2⟩)
    (fun payload => (payload.addrFrom, payload.type, payload.id)) fun _ => rfl)
  inv := .ofDelimited ((string.pair (string.pair (list nat bytes))).imap
    (fun f => ⟨f.1, f.2.1, f.2.2⟩)
    (fun payload => (payload.addrFrom, payload.type, payload.items)) fun _ => rfl)
  tx := .ofDelimited ((string.pair bytes).imap (fun f => ⟨f.1, f.2⟩)
    (fun payload => (payload.addFrom, payload.transaction)) fun _ => rfl)
  version := .ofDelimited ((int.pair (int.pair string)).imap (fun f => ⟨f.1, f.2.1, f.2.2⟩)
    (fun payload => (payload.version, payload.bestHeight, payload.addrFrom)) fun _ => rfl)
  storedBlock := .ofDelimited Encoding.block
  transaction := .ofDelimited Encoding.transaction

end BlockchainTutorial.Bitcoin
