import DBTest.LSMTree.Runs
import DBTest.LSMTree.Process
import DBTest.LSMTree.Search
import DBTest.LSMTree.Lookup
import DBTest.LSMTree.Sessions
import DBTest.LSMTree.Delete
import DBTest.LSMTree.Safety
import DBTest.Library.Tokens
import DBTest.Records.Format
import DBTest.Records.Lines
import DBTest.Records.Stores
import DBTest.LSMTree.Counts
import DBTest.LSMTree.Removal
import DBTest.LSMTree.Failures
import DBTest.Records.Table
import DBTest.Records.Rows
import DBTest.LSMTree.Truncation
import DBTest.Date.Civil
import DBTest.Date.Program
import DBTest.LSMTree.Machine
import DBTest.LSMTree.MapModel
import DBTest.LSMTree.TestProgram
import DBTest.Records.Generator
import DBTest.Records.Pack
import DBTest.LSMTree.Restarts
import DBTest.LSMTree.Interference
