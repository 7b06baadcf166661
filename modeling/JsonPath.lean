import JsonPath.Json.Read
import JsonPath.Main
import JsonPath.Proofs.Capacity
import JsonPath.Proofs.Cursor
import JsonPath.Proofs.Decoding
import JsonPath.Proofs.Diagnosis
import JsonPath.Proofs.Expansion
import JsonPath.Proofs.Listing
import JsonPath.Proofs.Lockstep
import JsonPath.Proofs.Naming
import JsonPath.Proofs.Notation
import JsonPath.Proofs.Online
import JsonPath.Proofs.Overflow
import JsonPath.Proofs.Rescan
import JsonPath.Proofs.Spelling
import JsonPath.Proofs.Stream
import JsonPath.Proofs.Wire
import JsonPath.Proofs.WireForms
import JsonPath.Subpath
